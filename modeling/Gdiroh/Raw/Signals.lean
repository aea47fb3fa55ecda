/-
The end of an `IrohConnection` as script learns of it by the signals `opened`,
`failed` and `closed`.

Which signal an end is told with depends on whether the object has the handle
when it handles the `Closed`, so the order of what is in the event channel
matters. `Stage` is that order: nothing yet, a refusal and nothing else,
`Opened` and then the rest, or the rest, in which there is one `Closed` at
most and after which nobody sends another. It makes the signals right on every
path (`signals_once`).
-/
import Gdiroh.Raw.Receiving

namespace Gdiroh.Raw

/-- `failed` or `closed`. -/
def Signal.isEnd : Signal → Bool
  | .failed _ | .closed _ => true
  | _ => false

/-- Neither `opened` nor an end among them. -/
def Plain (signals : List Signal) : Prop := .opened ∉ signals ∧ signals.filter Signal.isEnd = []

/-- The signals of a connection that has opened and not ended. -/
def Begun (dialled : Bool) (signals : List Signal) : Prop :=
  ∃ rest, signals = (if dialled then [.opened] else []) ++ rest ∧ Plain rest

/-- The signals of one that has ended since. -/
def Shut (dialled : Bool) (signals : List Signal) : Prop :=
  ∃ before reason after, signals = before ++ .closed reason :: after ∧ Begun dialled before ∧ Plain after

/-- `opened` comes at most once, from a dialled connection and before all
else; one end at most comes; `failed` only from a connection that has not
opened, `closed` only from one that has. -/
structure Proper (dialled : Bool) (signals : List Signal) : Prop where
  once : signals.count .opened ≤ 1
  first : .opened ∈ signals → dialled = true ∧ signals.head? = some .opened
  oneEnd : (signals.filter Signal.isEnd).length ≤ 1
  failed : ∀ reason, .failed reason ∈ signals → dialled = true ∧ .opened ∉ signals
  closed : ∀ reason, .closed reason ∈ signals → dialled = true → .opened ∈ signals

/-! ## Lists of signals -/

variable {dialled : Bool} {signals more : List Signal}

theorem Plain.append (h : Plain signals) (hm : Plain more) : Plain (signals ++ more) :=
  ⟨by simp [h.1, hm.1], by rw [List.filter_append, h.2, hm.2, List.append_nil]⟩

theorem Plain.no_end (h : Plain signals) {x : Signal} (hx : x.isEnd = true) : x ∉ signals := by
  intro hm
  have := List.mem_filter.2 ⟨hm, hx⟩
  simp [h.2] at this

theorem Begun.append (h : Begun dialled signals) (hm : Plain more) : Begun dialled (signals ++ more) := by
  obtain ⟨rest, rfl, hrest⟩ := h
  exact ⟨rest ++ more, by simp, hrest.append hm⟩

theorem Shut.append (h : Shut dialled signals) (hm : Plain more) : Shut dialled (signals ++ more) := by
  obtain ⟨before, reason, after, rfl, hbefore, hafter⟩ := h
  exact ⟨before, reason, after ++ more, by simp, hbefore, hafter.append hm⟩

theorem Begun.no_end (h : Begun dialled signals) {x : Signal} (hx : x.isEnd = true) : x ∉ signals := by
  obtain ⟨rest, rfl, hrest⟩ := h
  intro hm
  rcases List.mem_append.1 hm with hm | hm
  · cases dialled
    · simp at hm
    · simp only [if_true, List.mem_singleton] at hm
      simp [hm, Signal.isEnd] at hx
  · exact hrest.no_end hx hm

theorem Begun.count (h : Begun dialled signals) : signals.count .opened = if dialled then 1 else 0 := by
  obtain ⟨rest, rfl, hrest⟩ := h
  rw [List.count_append, List.count_eq_zero_of_not_mem hrest.1]
  cases dialled <;> rfl

theorem Begun.filter (h : Begun dialled signals) : signals.filter Signal.isEnd = [] :=
  List.filter_eq_nil_iff.2 fun _ hm hx => h.no_end hx hm

theorem Begun.proper (h : Begun dialled signals) : Proper dialled signals := by
  refine ⟨?_, fun hm => ?_, by simp [h.filter], fun reason hm => absurd hm (h.no_end rfl),
    fun reason hm => absurd hm (h.no_end rfl)⟩
  · rw [h.count]
    split <;> omega
  · obtain ⟨rest, rfl, hrest⟩ := h
    cases dialled with
    | true => exact ⟨rfl, rfl⟩
    | false => exact absurd hm hrest.1

theorem Shut.proper (h : Shut dialled signals) : Proper dialled signals := by
  obtain ⟨before, reason, after, rfl, hbefore, hafter⟩ := h
  have hb := hbefore.proper
  have hopened : .opened ∈ before ++ .closed reason :: after → .opened ∈ before := by
    intro hm
    simpa [hafter.1] using hm
  refine ⟨?_, fun hm => ?_, ?_, fun r hm => ?_, fun r _ hd => ?_⟩
  · rw [List.count_append, List.count_cons, List.count_eq_zero_of_not_mem hafter.1]
    simpa using hb.once
  · obtain ⟨hd, hhead⟩ := hb.first (hopened hm)
    exact ⟨hd, by rw [List.head?_append, hhead]; rfl⟩
  · rw [List.filter_append, hbefore.filter, List.filter_cons_of_pos rfl, hafter.2]
    rfl
  · rcases List.mem_append.1 hm with hm | hm
    · exact absurd hm (hbefore.no_end rfl)
    · exact absurd (by simpa using hm) (hafter.no_end (x := .failed r) rfl)
  · refine List.mem_append_left _ (List.count_pos_iff.1 ?_)
    rw [hbefore.count, if_pos hd]
    omega

theorem proper_nil : Proper dialled [] := ⟨by simp, by simp, by simp, by simp, by simp⟩

theorem proper_failed (reason : String) : Proper true [.failed reason] :=
  ⟨by simp, by simp, Nat.le_refl 1, by simp, by simp⟩

/-! ## What handling does -/

theorem handle_plain (o : IrohConnection) {e : Event} (ho : e ≠ .opened) (hc : e.isClosed = false) :
    (o.handle e).events = o.events ∧ (o.handle e).connection = o.connection ∧
      ∃ signals, (o.handle e).emitted = o.emitted ++ signals ∧ Plain signals := by
  cases e with
  | opened => exact absurd rfl ho
  | closed => simp [Event.isClosed] at hc
  | stream id => exact ⟨rfl, rfl, [.streamOpened id], rfl, by simp [Plain, Signal.isEnd]⟩
  | datagram data => exact ⟨rfl, rfl, [.datagramReceived data], rfl, by simp [Plain, Signal.isEnd]⟩

/-- What is handled behind a `Closed` adds no end. -/
theorem handles_shut {pending : List Event} {o : IrohConnection} (ho : .opened ∉ pending) (hc : hasClosed pending = false)
    (hs : Shut dialled o.emitted) :
    (pending.foldl IrohConnection.handle o).events = o.events ∧
      (pending.foldl IrohConnection.handle o).connection = o.connection ∧
      Shut dialled (pending.foldl IrohConnection.handle o).emitted := by
  induction pending generalizing o with
  | nil => exact ⟨rfl, rfl, hs⟩
  | cons e pending ih =>
    simp only [List.mem_cons, not_or] at ho
    simp only [hasClosed, List.any_cons, Bool.or_eq_false_iff] at hc
    obtain ⟨hevents, hconnection, signals, hemitted, hplain⟩ := handle_plain o (Ne.symm ho.1) hc.1
    rw [List.foldl_cons, ← hevents, ← hconnection]
    exact ih ho.2 hc.2 (hemitted ▸ hs.append hplain)

/-- The number of `Closed` events. -/
def ends (events : List Event) : Nat := (events.filter Event.isClosed).length

theorem ends_append (xs ys : List Event) : ends (xs ++ ys) = ends xs + ends ys := by
  simp [ends]

theorem ends_eq_zero {events : List Event} : ends events = 0 ↔ hasClosed events = false := by
  rw [ends, List.length_eq_zero_iff, List.filter_eq_nil_iff]
  simp [hasClosed]

/-- A batch that an open connection handles. -/
theorem handles_live {pending : List Event} {o : IrohConnection} (ho : .opened ∉ pending) (h1 : ends pending ≤ 1)
    (hc : o.connection = true) (hs : Begun dialled o.emitted) :
    (hasClosed pending = true ∧ (pending.foldl IrohConnection.handle o).events = none ∧
        (pending.foldl IrohConnection.handle o).connection = false ∧
        Shut dialled (pending.foldl IrohConnection.handle o).emitted) ∨
      (hasClosed pending = false ∧ (pending.foldl IrohConnection.handle o).events = o.events ∧
        (pending.foldl IrohConnection.handle o).connection = true ∧
        Begun dialled (pending.foldl IrohConnection.handle o).emitted) := by
  induction pending generalizing o with
  | nil => exact .inr ⟨rfl, rfl, hc, hs⟩
  | cons e pending ih =>
    simp only [List.mem_cons, not_or] at ho
    cases hclosed : e.isClosed with
    | true =>
      have hno : hasClosed pending = false := by
        refine ends_eq_zero.1 ?_
        simp only [ends, List.filter_cons_of_pos hclosed, List.length_cons] at h1 ⊢
        omega
      cases e with
      | closed reason =>
        left
        have hshut : Shut dialled (o.handle (.closed reason)).emitted :=
          ⟨o.emitted, reason, [], by simp [IrohConnection.handle, IrohConnection.emitLater, hc], hs, by simp [Plain]⟩
        obtain ⟨hevents, hconnection, hs'⟩ := handles_shut ho.2 hno hshut
        rw [List.foldl_cons, hevents, hconnection]
        exact ⟨rfl, rfl, rfl, hs'⟩
      | opened | stream | datagram => simp [Event.isClosed] at hclosed
    | false =>
      obtain ⟨hevents, hconnection, signals, hemitted, hplain⟩ := handle_plain o (Ne.symm ho.1) hclosed
      have h1' : ends pending ≤ 1 := by
        rw [ends, List.filter_cons_of_neg (by simp [hclosed])] at h1
        exact h1
      have hhas : hasClosed (e :: pending) = hasClosed pending := by simp [hasClosed, hclosed]
      rw [List.foldl_cons, hhas, ← hevents]
      exact ih ho.2 h1' (hconnection.trans hc) (hemitted ▸ hs.append hplain)

namespace Conn

/-- The dial task has sent `Opened`, or a pump task runs. -/
def Pumped (c : Conn) : Prop := c.dial = .sent ∨ c.acceptor ≠ .off ∨ c.reader ≠ .off ∨ c.watcher = true

/-- What waits behind the opening: one `Closed` at most, and then nobody who
could send another. -/
structure Tail (c : Conn) (queue : List Event) : Prop where
  opened : .opened ∉ queue
  ends : ends queue ≤ 1
  last : hasClosed queue = true → c.watcher = false ∧ c.dial = .over

/-- The dial task is through with the opening, and the close watcher, which
it starts, does not run before. -/
def Dialled (c : Conn) : Prop := c.dial = .sent ∧ c.watcher = false ∨ c.dial = .over

/-- How far a connection has come. -/
inductive Stage (dialled : Bool) (c : Conn) : Prop
  /-- Nothing has come of the dial, and nothing ever may. -/
  | waiting (hd : dialled = true) (he : c.object.events = some []) (hc : c.object.connection = false)
    (hs : c.object.emitted = []) (hp : ¬ c.Pumped) (hdial : c.dial = .dialling → c.established = false)
    (hest : c.dial = .connected → c.established = true)
  | refused {reason : String} (hd : dialled = true) (he : c.object.events = some [.closed reason])
    (hc : c.object.connection = false) (hs : c.object.emitted = []) (hp : ¬ c.Pumped) (hdial : c.dial = .over)
    (hest : c.established = false)
  | arriving {queue : List Event} (hd : dialled = true) (he : c.object.events = some (.opened :: queue))
    (hc : c.object.connection = false) (hs : c.object.emitted = []) (hq : c.Tail queue) (hdial : c.Dialled)
    (hest : c.established = true)
  | live {queue : List Event} (he : c.object.events = some queue) (hc : c.object.connection = true)
    (hs : Begun dialled c.object.emitted) (hq : c.Tail queue) (hdial : c.Dialled) (hest : c.established = true)
  | ended (he : c.object.events = none) (hc : c.object.connection = false) (hs : Proper dialled c.object.emitted)
    (hfailed : ∀ reason, .failed reason ∈ c.object.emitted → c.established = false ∧ c.dial = .over)
    (hclosed : ∀ reason, .closed reason ∈ c.object.emitted → c.established = true)

/-! ## One step -/

variable {c c' : Conn}

theorem Tail.moves {queue : List Event} (h : c.Tail queue) (hw : c'.watcher = true → c.watcher = true)
    (hdial : c'.dial = c.dial ∨ c'.dial = .over) : c'.Tail queue := by
  refine ⟨h.opened, h.ends, fun hc => ?_⟩
  obtain ⟨hoff, hover⟩ := h.last hc
  refine ⟨?_, hdial.elim (fun he => he.trans hover) id⟩
  by_contra hon
  simp [hw (by simpa using hon)] at hoff

theorem Dialled.moves (h : c.Dialled) (hw : c'.watcher = true → c.watcher = true)
    (hdial : c'.dial = c.dial ∨ c'.dial = .over) : c'.Dialled := by
  rcases hdial with he | hover
  · rcases h with ⟨hsent, hoff⟩ | hover
    · refine .inl ⟨he.trans hsent, ?_⟩
      by_contra hon
      simp [hw (by simpa using hon)] at hoff
    · exact .inr (he.trans hover)
  · exact .inr hover

/-- A step that the object does not see, and that starts nothing. -/
theorem Stage.moves (h : c.Stage dialled) (he : c'.object.events = c.object.events)
    (hc : c'.object.connection = c.object.connection) (hs : c'.object.emitted = c.object.emitted)
    (hest : c'.established = c.established) (hdial : c'.dial = c.dial ∨ c'.dial = .over)
    (hw : c'.watcher = true → c.watcher = true) (hp : c'.Pumped → c.Pumped) : c'.Stage dialled := by
  have hback : ∀ d, c'.dial = d → d ≠ .over → c.dial = d := by
    rintro d rfl hne
    exact (hdial.resolve_right hne).symm
  cases h with
  | waiting hd he' hc' hs' hp' hdial' hest' =>
    refine .waiting hd (he.trans he') (hc.trans hc') (hs.trans hs') (fun hp'' => hp' (hp hp'')) (fun h => ?_) fun h => ?_
    · exact hest.trans (hdial' (hback _ h (by simp)))
    · exact hest.trans (hest' (hback _ h (by simp)))
  | refused hd he' hc' hs' hp' hdial' hest' =>
    exact .refused hd (he.trans he') (hc.trans hc') (hs.trans hs') (fun hp'' => hp' (hp hp''))
      (hdial.elim (fun h => h.trans hdial') id) (hest.trans hest')
  | arriving hd he' hc' hs' hq' hdial' hest' =>
    exact .arriving hd (he.trans he') (hc.trans hc') (hs.trans hs') (hq'.moves hw hdial) (hdial'.moves hw hdial)
      (hest.trans hest')
  | live he' hc' hs' hq' hdial' hest' =>
    exact .live (he.trans he') (hc.trans hc') (hs ▸ hs') (hq'.moves hw hdial) (hdial'.moves hw hdial) (hest.trans hest')
  | ended he' hc' hs' hfailed hclosed =>
    refine .ended (he.trans he') (hc.trans hc') (hs ▸ hs') (fun r hm => ?_) fun r hm => hest.trans (hclosed r (hs ▸ hm))
    obtain ⟨hest', hover⟩ := hfailed r (hs ▸ hm)
    exact ⟨hest.trans hest', hdial.elim (fun h => h.trans hover) id⟩

theorem Tail.concat {queue : List Event} (h : c.Tail queue) {e : Event} (ho : e ≠ .opened) (hc : e.isClosed = false) :
    c.Tail (queue ++ [e]) := by
  refine ⟨by simp [h.opened, Ne.symm ho], ?_, fun hclosed => h.last ?_⟩
  · have hnone : Raw.ends [e] = 0 := ends_eq_zero.2 (by simp [hasClosed, hc])
    rw [ends_append, hnone]
    exact h.ends
  · simpa [hasClosed, hc] using hclosed

/-- A pump task sends a stream or a datagram. -/
theorem Stage.sends (h : c.Stage dialled) (hp : c.Pumped ∨ c.object.events = none) (e : Event) (ho : e ≠ .opened)
    (hcl : e.isClosed = false) : (c.send e).Stage dialled := by
  cases h with
  | waiting _ he _ _ hp' => exact absurd hp (by simp [hp', he])
  | refused _ he _ _ hp' => exact absurd hp (by simp [hp', he])
  | arriving hd he hc hs hq hdial hest =>
    rw [send_eq, he]
    exact .arriving hd rfl hc hs ((hq.concat ho hcl).moves id (.inl rfl)) hdial hest
  | live he hc hs hq hdial hest =>
    rw [send_eq, he]
    exact .live rfl hc hs ((hq.concat ho hcl).moves id (.inl rfl)) hdial hest
  | ended he hc hs hfailed hclosed =>
    rw [send, he]
    exact .ended he hc hs hfailed hclosed

theorem stage_answered (h : c.Stage dialled) (hd : c.dial = .dialling) :
    Stage dialled { c with dial := .connected, established := true } := by
  have hover : c.dial ≠ .over := by simp [hd]
  cases h with
  | waiting hd' he hc hs hp =>
    refine .waiting hd' he hc hs (fun hp' => hp ?_) (by simp) fun _ => rfl
    rcases hp' with hsent | hp'
    · simp at hsent
    · exact .inr hp'
  | refused _ _ _ _ _ hdial => exact absurd hdial hover
  | arriving _ _ _ _ _ hdial => simp [Dialled, hd] at hdial
  | live _ _ _ _ hdial => simp [Dialled, hd] at hdial
  | ended he hc hs hfailed => exact .ended he hc hs (fun r hm => absurd (hfailed r hm).2 hover) fun _ _ => rfl

theorem stage_refused (h : c.Stage dialled) (hd : c.dial = .dialling) (text : String) :
    Stage dialled ({ c with dial := .over }.send (.closed text)) := by
  have hover : c.dial ≠ .over := by simp [hd]
  cases h with
  | waiting hd' he hc hs hp hdial =>
    rw [send_eq]
    simp only [he]
    refine .refused hd' rfl hc hs (fun hp' => hp ?_) rfl (hdial hd)
    rcases hp' with hsent | hp'
    · simp at hsent
    · exact .inr hp'
  | refused _ _ _ _ _ hdial => exact absurd hdial hover
  | arriving _ _ _ _ _ hdial => simp [Dialled, hd] at hdial
  | live _ _ _ _ hdial => simp [Dialled, hd] at hdial
  | ended he hc hs hfailed hclosed =>
    rw [send_eq]
    simp only [he]
    exact .ended rfl hc hs (fun r hm => absurd (hfailed r hm).2 hover) hclosed

theorem stage_opened (h : c.Stage dialled) (hd : c.dial = .connected) :
    Stage dialled ({ c with dial := if c.object.events.isSome then .sent else .over }.send .opened) := by
  have hover : c.dial ≠ .over := by simp [hd]
  cases h with
  | waiting hd' he hc hs hp _ hest =>
    have hoff : c.watcher = false := by
      by_contra hw
      exact hp (.inr (.inr (.inr (by simpa using hw))))
    rw [send_eq]
    simp only [he]
    exact .arriving hd' rfl hc hs ⟨by simp, by simp [Raw.ends], by simp [hasClosed]⟩ (.inl ⟨rfl, hoff⟩) (hest hd)
  | refused _ _ _ _ _ hdial => exact absurd hdial hover
  | arriving _ _ _ _ _ hdial => simp [Dialled, hd] at hdial
  | live _ _ _ _ hdial => simp [Dialled, hd] at hdial
  | ended he hc hs hfailed hclosed =>
    rw [send_eq]
    simp only [he]
    exact .ended rfl hc hs (fun r hm => absurd (hfailed r hm).2 hover) hclosed

theorem stage_pump (h : c.Stage dialled) (hd : c.dial = .sent) :
    Stage dialled { c with dial := .over, acceptor := .waiting, reader := .waiting, watcher := true } := by
  have htail : ∀ {queue}, c.Tail queue →
      Tail { c with dial := .over, acceptor := .waiting, reader := .waiting, watcher := true } queue := by
    intro queue hq
    refine ⟨hq.opened, hq.ends, fun hc => ?_⟩
    simp [(hq.last hc).2] at hd
  cases h with
  | waiting _ _ _ _ hp => exact absurd (.inl hd) hp
  | refused _ _ _ _ hp => exact absurd (.inl hd) hp
  | arriving hd' he hc hs hq _ hest => exact .arriving hd' he hc hs (htail hq) (.inr rfl) hest
  | live he hc hs hq _ hest => exact .live he hc hs (htail hq) (.inr rfl) hest
  | ended he hc hs hfailed hclosed => exact .ended he hc hs (fun r hm => ⟨(hfailed r hm).1, rfl⟩) hclosed

theorem stage_watch (h : c.Stage dialled) (hw : c.watcher = true) (reason : String) :
    Stage dialled ({ c with watcher := false }.send (.closed reason)) := by
  have hp : c.Pumped := .inr (.inr (.inr hw))
  have hover : c.Dialled → c.dial = .over := fun hdial => hdial.resolve_left fun h => by simp [hw] at h
  have htail : ∀ {queue}, c.Tail queue → c.dial = .over → ∀ o sent, Tail { c with
      watcher := false, object := o, sent := sent } (queue ++ [.closed reason]) := by
    intro queue hq hdial o sent
    have hno : hasClosed queue = false := by
      by_contra hc
      simp [(hq.last (by simpa using hc)).1] at hw
    refine ⟨by simp [hq.opened], ?_, fun _ => ⟨rfl, hdial⟩⟩
    rw [ends_append, ends_eq_zero.2 hno]
    exact Nat.le_refl 1
  cases h with
  | waiting _ _ _ _ hp' => exact absurd hp hp'
  | refused _ _ _ _ hp' => exact absurd hp hp'
  | arriving hd' he hc hs hq hdial hest =>
    rw [send_eq]
    simp only [he]
    exact .arriving hd' rfl hc hs (htail hq (hover hdial) _ _) (.inr (hover hdial)) hest
  | live he hc hs hq hdial hest =>
    rw [send_eq]
    simp only [he]
    exact .live rfl hc hs (htail hq (hover hdial) _ _) (.inr (hover hdial)) hest
  | ended he hc hs hfailed hclosed =>
    rw [send_eq]
    simp only [he]
    exact .ended rfl hc hs hfailed hclosed

/-- The object handles what is behind the opening. -/
theorem stage_handles {pending queue : List Event} {o : IrohConnection} (he : o.events = some queue)
    (hc : o.connection = true) (hs : Begun dialled o.emitted) (hq : c.Tail (pending ++ queue)) (hdial : c.Dialled)
    (hest : c.established = true) : Stage dialled { c with object := pending.foldl IrohConnection.handle o } := by
  have hopened : .opened ∉ pending := fun hm => hq.opened (List.mem_append_left _ hm)
  have hends : Raw.ends pending ≤ 1 := by
    have := hq.ends
    rw [ends_append] at this
    omega
  rcases handles_live hopened hends hc hs with ⟨_, hevents, hconnection, hshut⟩ | ⟨hno, hevents, hconnection, hbegun⟩
  · obtain ⟨before, reason, after, hsplit, hbefore, hafter⟩ := hshut
    refine .ended hevents hconnection (Shut.proper ⟨before, reason, after, hsplit, hbefore, hafter⟩) (fun r hm => ?_)
      fun _ _ => hest
    have hm : .failed r ∈ (pending.foldl IrohConnection.handle o).emitted := hm
    rw [hsplit] at hm
    rcases List.mem_append.1 hm with hm | hm
    · exact absurd hm (hbefore.no_end rfl)
    · exact absurd (by simpa using hm) (hafter.no_end (x := .failed r) rfl)
  · refine .live (hevents.trans he) hconnection hbegun ⟨fun hm => hq.opened (List.mem_append_right _ hm), ?_, fun hc' => ?_⟩
      hdial hest
    · have := hq.ends
      rw [ends_append] at this
      omega
    · exact hq.last (by rw [hasClosed_append, hc', Bool.or_true])

/-- The object handles a refusal. -/
theorem stage_failed {reason : String} {o : IrohConnection} (hd : dialled = true) (hc : o.connection = false)
    (hs : o.emitted = []) (hdial : c.dial = .over) (hest : c.established = false) :
    Stage dialled { c with object := o.handle (.closed reason) } := by
  have hemitted : (o.handle (.closed reason)).emitted = [.failed reason] := by
    simp [IrohConnection.handle, IrohConnection.emitLater, hs, hc]
  refine .ended rfl rfl ?_ (fun _ _ => ⟨hest, hdial⟩) fun r hm => ?_
  · rw [hemitted, hd]
    exact proper_failed reason
  · rw [hemitted] at hm
    simp at hm

theorem stage_drain (h : c.Stage dialled) : Stage dialled { c with object := c.object.drainPending } := by
  cases h with
  | waiting hd he hc hs hp hdial hest =>
    rw [IrohConnection.drainPending, he]
    exact .waiting hd rfl hc hs hp hdial hest
  | refused hd he hc hs hp hdial hest =>
    rw [IrohConnection.drainPending, he]
    exact stage_failed (o := { c.object with events := some [] }) hd hc hs hdial hest
  | arriving hd he hc hs hq hdial hest =>
    rw [IrohConnection.drainPending, he]
    refine stage_handles (o := IrohConnection.handle { c.object with events := some [] } .opened) rfl rfl ?_
      (by rwa [List.append_nil]) hdial hest
    exact ⟨[], by simp [IrohConnection.handle, IrohConnection.emitLater, hs, hd], by simp [Plain]⟩
  | live he hc hs hq hdial hest =>
    rw [IrohConnection.drainPending, he]
    exact stage_handles (o := { c.object with events := some [] }) rfl hc hs (by rwa [List.append_nil]) hdial hest
  | ended he hc hs hfailed hclosed =>
    rw [IrohConnection.drainPending, he]
    exact .ended he hc hs hfailed hclosed

/-- `get_datagram` takes an event. -/
theorem stage_event (h : c.Stage dialled) {e : Event} {rest : List Event} (he : c.object.events = some (e :: rest)) :
    Stage dialled { c with object := { c.object with events := some rest }.handle e } := by
  cases h with
  | waiting _ he' => simp [he'] at he
  | refused hd he' hc hs _ hdial hest =>
    obtain ⟨rfl, rfl⟩ := List.cons.inj (Option.some.inj (he'.symm.trans he))
    exact stage_failed (o := { c.object with events := some [] }) hd hc hs hdial hest
  | arriving hd he' hc hs hq hdial hest =>
    obtain ⟨rfl, rfl⟩ := List.cons.inj (Option.some.inj (he'.symm.trans he))
    refine .live rfl rfl ⟨[], ?_, by simp [Plain]⟩ (hq.moves id (.inl rfl)) hdial hest
    simp [IrohConnection.handle, IrohConnection.emitLater, hs, hd]
  | live he' hc hs hq hdial hest =>
    obtain rfl := Option.some.inj (he'.symm.trans he)
    exact stage_handles (o := { c.object with events := some rest }) rfl hc hs (show c.Tail ([e] ++ rest) from hq) hdial hest
  | ended he' => simp [he'] at he

/-- `get_datagram` takes a datagram, of which no signal tells. -/
theorem stage_taken (h : c.Stage dialled) {data : Bytes} {rest handled : List Event}
    (he : c.object.events = some (.datagram data :: rest)) :
    Stage dialled { c with object := { c.object with events := some rest, handled } } := by
  cases h with
  | live he' hc hs hq hdial hest =>
    obtain rfl := Option.some.inj (he'.symm.trans he)
    refine .live rfl hc hs ⟨fun hm => hq.opened (by simp [hm]), hq.ends, fun hcl => hq.last ?_⟩ hdial hest
    exact hcl
  | waiting _ he' | refused _ he' | arriving _ he' | ended he' => simp [he'] at he

theorem stage_close (h : c.Stage dialled) (ended : Option String) (closed dropped : Bool) :
    Stage dialled { c with object := c.object.close, ended, closed, dropped } := by
  cases h with
  | waiting _ _ _ hs | refused _ _ _ hs | arriving _ _ _ hs =>
    refine .ended rfl rfl ?_ (fun r hm => ?_) fun r hm => ?_
    · show Proper dialled c.object.emitted
      rw [hs]
      exact proper_nil
    · simp [IrohConnection.close, hs] at hm
    · simp [IrohConnection.close, hs] at hm
  | live _ _ hs _ _ hest =>
    exact .ended rfl rfl hs.proper (fun r hm => absurd hm (hs.no_end rfl)) fun _ _ => hest
  | ended _ _ hs hfailed hclosed => exact .ended rfl rfl hs hfailed hclosed

theorem stepped_stage {act : Act} (h : c.Stage dialled) (hs : Stepped c act c') (hne : act ≠ .recv) :
    c'.Stage dialled := by
  cases hs with
  | answered hd => exact stage_answered h hd
  | refused hd => exact stage_refused h hd _
  | opened hd => exact stage_opened h hd
  | pump hd => exact stage_pump h hd
  | queueStream hhold =>
    have hp : c.Pumped := .inr (.inl (by simp [hhold]))
    refine Stage.sends ?_ ?_ (.stream _) (by simp) rfl
    · exact h.moves rfl rfl rfl rfl (.inl rfl) id fun _ => hp
    · cases hev : c.object.events with
      | none => exact .inr rfl
      | some queue => exact .inl (.inr (.inl (by simp)))
  | queueDatagram hhold =>
    have hp : c.Pumped := .inr (.inr (.inl (by simp [hhold])))
    refine Stage.sends ?_ ?_ (.datagram _) (by simp) rfl
    · exact h.moves rfl rfl rfl rfl (.inl rfl) id fun _ => hp
    · cases hev : c.object.events with
      | none => exact .inr rfl
      | some queue => exact .inl (.inr (.inr (.inl (by simp))))
  | watch hw => exact stage_watch h hw _
  | accept hwait | stopAccepting hwait =>
    exact h.moves rfl rfl rfl rfl (.inl rfl) id fun _ => .inr (.inl (by simp [hwait]))
  | read hwait | stopReading hwait =>
    exact h.moves rfl rfl rfl rfl (.inl rfl) id fun _ => .inr (.inr (.inl (by simp [hwait])))
  | stream | datagram | ends | openStream | streamOpened => exact h.moves rfl rfl rfl rfl (.inl rfl) id id
  | drain => exact stage_drain h
  | recv => exact absurd rfl hne
  | close => exact stage_close h _ _ _
  | drop => exact stage_close h _ _ _

/-- Losing a task starts none. -/
theorem pumped_of_lose {task : Task} (h : (c.lose task).Pumped) : c.Pumped := by
  cases task with
  | dial =>
    rcases h with hsent | h
    · simp [lose] at hsent
    · exact .inr h
  | acceptor =>
    rcases h with hsent | hoff | h
    · exact .inl hsent
    · simp [lose] at hoff
    · exact .inr (.inr h)
  | reader =>
    rcases h with hsent | hon | hoff | h
    · exact .inl hsent
    · exact .inr (.inl hon)
    · simp [lose] at hoff
    · exact .inr (.inr (.inr h))
  | watcher =>
    rcases h with hsent | hon | hon | hoff
    · exact .inl hsent
    · exact .inr (.inl hon)
    · exact .inr (.inr (.inl hon))
    · simp [lose] at hoff

theorem stage_lose (h : c.Stage dialled) (task : Task) : (c.lose task).Stage dialled := by
  cases task with
  | dial => exact h.moves rfl rfl rfl rfl (.inr rfl) id pumped_of_lose
  | acceptor | reader => exact h.moves rfl rfl rfl rfl (.inl rfl) id pumped_of_lose
  | watcher => exact h.moves rfl rfl rfl rfl (.inl rfl) (by simp [lose]) pumped_of_lose

/-- What the stages have in common. -/
theorem Stage.emits (h : c.Stage dialled) :
    Proper dialled c.object.emitted ∧
    (∀ reason, .failed reason ∈ c.object.emitted → c.established = false) ∧
    ∀ reason, .closed reason ∈ c.object.emitted → c.established = true := by
  cases h with
  | waiting _ _ _ hs | refused _ _ _ hs | arriving _ _ _ hs =>
    rw [hs]
    exact ⟨proper_nil, by simp, by simp⟩
  | live _ _ hs => exact ⟨hs.proper, fun _ hm => absurd hm (hs.no_end rfl), fun _ hm => absurd hm (hs.no_end rfl)⟩
  | ended _ _ hs hfailed hclosed => exact ⟨hs, fun reason hm => (hfailed reason hm).1, hclosed⟩

/-- Without the event channel there is no handle either. -/
theorem Stage.closed (h : c.Stage dialled) (he : c.object.events = none) : c.object.connection = false := by
  cases h with
  | ended _ hc => exact hc
  | waiting _ he' | refused _ he' | arriving _ he' | live he' => simp [he'] at he

theorem stage_dialled (running tree : Bool) : Stage true (Conn.dialled running tree) := by
  cases running with
  | true => exact .waiting rfl rfl rfl rfl (by simp [Pumped, Conn.dialled]) (fun _ => rfl) fun h => by simp [Conn.dialled] at h
  | false => exact .refused rfl rfl rfl rfl (by simp [Pumped, Conn.dialled]) rfl rfl

theorem stage_accepted (running tree : Bool) : Stage false (Conn.accepted running tree) :=
  .live rfl rfl ⟨[], rfl, by simp [Plain]⟩ ⟨by simp, by simp [Raw.ends], by simp [hasClosed]⟩ (.inr rfl) rfl

end Conn

/-! ## Every run -/

namespace Receiver
variable {s s' : Receiver}

theorem stepped_stage {a : Act} (h : s.conn.Stage dialled) (hs : Stepped s a s') : s'.conn.Stage dialled := by
  cases hs with
  | conn hb hs => exact Conn.stepped_stage h hs (Conn.Act.ne_recv hb)
  | count => exact Conn.stage_drain h
  | popped | stop => exact h.moves rfl rfl rfl rfl (.inl rfl) id id
  | waits | ended | silent => exact h
  | received _ he => exact Conn.stage_taken h he
  | handled _ he => exact Conn.stage_event h he
  | lose => exact Conn.stage_lose h _

theorem stage_run {running tree : Bool} {as : List Act} (h : Machine.run step (made dialled running tree) as = some s) :
    s.conn.Stage dialled := by
  refine Machine.run_invariant (fun _ _ _ hI hs => stepped_stage hI (step_cases hs)) h ?_
  cases dialled with
  | true => exact Conn.stage_dialled running tree
  | false => exact Conn.stage_accepted running tree

/-- Without the event channel, nothing is signalled. -/
theorem stepped_frozen {a : Act} (hs : Stepped s a s') (he : s.conn.object.events = none) :
    s'.conn.object.events = none ∧ s'.conn.object.emitted = s.conn.object.emitted := by
  have hdrain : s.conn.object.drainPending = s.conn.object := by rw [IrohConnection.drainPending, he]
  cases hs with
  | conn _ hs =>
    cases hs with
    | refused | opened | queueStream | queueDatagram | watch =>
      rw [Conn.send, he]
      exact ⟨he, rfl⟩
    | drain => exact ⟨hdrain.symm ▸ he, by rw [hdrain]⟩
    | recv _ hrecv => simp [IrohConnection.recvBlocking, he] at hrecv
    | close | drop => exact ⟨rfl, rfl⟩
    | _ => exact ⟨he, rfl⟩
  | count => exact ⟨hdrain.symm ▸ he, by rw [hdrain]⟩
  | received _ he' | handled _ he' => simp [he] at he'
  | @lose task => cases task <;> exact ⟨he, rfl⟩
  | _ => exact ⟨he, rfl⟩

/-- Once script has closed the connection, it is told nothing more. -/
theorem closed_frozen {reason : String} {as : List Act} {t : Receiver}
    (h : Machine.run step s (.conn (.close reason) :: as) = some t) :
    t.conn.object.emitted = s.conn.object.emitted := by
  obtain ⟨u, hu, ht⟩ := Machine.run_cons.1 h
  have hclosed : u.conn.object.events = none ∧ u.conn.object.emitted = s.conn.object.emitted := by
    cases step_cases hu with
    | conn _ hs =>
      cases hs with
      | close => exact ⟨rfl, rfl⟩
  refine (Machine.run_invariant (I := fun t : Receiver => t.conn.object.events = none ∧
    t.conn.object.emitted = s.conn.object.emitted) (fun t a t' hI hs => ?_) ht hclosed).2
  obtain ⟨he, hemitted⟩ := stepped_frozen (step_cases hs) hI.1
  exact ⟨he, hemitted.trans hI.2⟩

/-- **The signals of a connection.** `opened` comes once at most, from a
dialled connection only and first of all; of `failed` and `closed` one comes
at most, `failed` if the connection never opened and `closed` if it did. After
`close`, nothing more comes. -/
theorem signals_once {running tree : Bool} {as : List Act}
    (h : Machine.run step (made dialled running tree) as = some s) :
    Proper dialled s.conn.object.emitted ∧
    (∀ reason, .failed reason ∈ s.conn.object.emitted → s.conn.established = false) ∧
    (∀ reason, .closed reason ∈ s.conn.object.emitted → s.conn.established = true) ∧
    ∀ reason bs t, Machine.run step s (.conn (.close reason) :: bs) = some t →
      t.conn.object.emitted = s.conn.object.emitted := by
  obtain ⟨hproper, hfailed, hclosed⟩ := (stage_run h).emits
  exact ⟨hproper, hfailed, hclosed, fun reason bs t ht => closed_frozen ht⟩

/-- A dialled connection opens while `get_datagram` waits, and ends. -/
theorem signals_once_received : ∃ s, Machine.run step (made true true true) [.getDatagram, .conn .answered,
      .conn .opened, .turn, .conn .pump, .conn (.ends "bye"), .conn .watch, .turn, .turn, .conn .drain] = some s ∧
    s.conn.object.emitted = [.opened, .closed "bye"] ∧ Proper true s.conn.object.emitted := by
  have hrun : (Machine.run step (made true true true) [.getDatagram, .conn .answered, .conn .opened, .turn, .conn .pump,
      .conn (.ends "bye"), .conn .watch, .turn, .turn, .conn .drain]).map (·.conn.object.emitted) =
        some [.opened, .closed "bye"] := by decide +kernel
  obtain ⟨s, hs, he⟩ := Option.map_eq_some_iff.1 hrun
  exact ⟨s, hs, he, (signals_once hs).1⟩

end Receiver
end Gdiroh.Raw
