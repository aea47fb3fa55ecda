/-
How the tasks of a topic, a document and a blob operation end: with one final
event, after which they send nothing, whichever of their exits they take
(`actors_end_once`). A document's first event, if it is not the end, is
`Opened`, and there is no other. So of the signals of a topic, and of those of
a transfer, only the last can be final, although a batch of events is handled
to its end even when the object has finished on the way.
-/
import Gdiroh.Endpoint.Actors
import Gdiroh.Endpoint.Orphans
import Gdiroh.Lib.Watched

namespace Gdiroh.Endpoint

open Polled

/-! ## A topic -/

namespace TopicTask

/-- Every step, by what it sends. -/
theorem step_speaks {t t' : TopicTask} {a : Act} (hs : t.step a = some t') :
    Speaks TopicEvent.final TopicTask.sent (·.phase = .ended) t t' := by
  have hgoing : ∀ {t : TopicTask} {phase : TopicPhase}, t.phase = phase → phase ≠ .ended → ¬ t.phase = .ended := by
    intro t phase hp hne ho
    exact hne (hp ▸ ho)
  cases a with
  | subscribed outcome =>
    simp only [step] at hs
    split at hs
    next hphase =>
      have hno := hgoing hphase (by simp)
      cases outcome with
      | ok _ =>
        obtain rfl := Option.some.inj hs
        exact .inl ⟨rfl, fun ho => absurd ho hno⟩
      | error reason =>
        obtain rfl := Option.some.inj hs
        exact .inr ⟨hno, _, rfl, fun _ => rfl⟩
    · simp at hs
  | order command =>
    simp only [step] at hs
    split at hs
    · obtain rfl := Option.some.inj hs
      exact .inl ⟨rfl, id⟩
    · simp at hs
  | drop =>
    obtain rfl := Option.some.inj hs
    exact .inl ⟨rfl, id⟩
  | command outcome =>
    simp only [step] at hs
    split at hs
    next hphase =>
      have hno := hgoing hphase (by simp)
      split at hs
      · split at hs
        · simp at hs
        · obtain rfl := Option.some.inj hs
          exact .inl ⟨rfl, fun _ => rfl⟩
      · cases outcome with
        | ok _ =>
          obtain rfl := Option.some.inj hs
          exact .inl ⟨rfl, id⟩
        | error reason =>
          obtain rfl := Option.some.inj hs
          exact .inr ⟨hno, _, rfl, fun _ => rfl⟩
    · simp at hs
  | event item =>
    simp only [step] at hs
    split at hs
    next hphase =>
      have hno := hgoing hphase (by simp)
      split at hs
      next event =>
        have hreport : ∃ e, (t.report event).1.sent = t.sent ++ [e] ∧ (e.final = true → (t.report event).2 = false) := by
          cases event with
          | neighborUp peer => exact ⟨_, rfl, by simp [TopicEvent.final]⟩
          | neighborDown peer => exact ⟨_, rfl, by simp [TopicEvent.final]⟩
          | received content deliveredFrom direct => exact ⟨_, rfl, by simp [TopicEvent.final]⟩
          | lagged => exact ⟨_, rfl, fun _ => rfl⟩
        obtain ⟨e, he, hfinal⟩ := hreport
        split at hs
        next hmore =>
          obtain rfl := Option.some.inj hs
          exact .inr ⟨hno, e, he, fun hf => by simp [hfinal hf] at hmore⟩
        · obtain rfl := Option.some.inj hs
          exact .inr ⟨hno, e, he, fun _ => rfl⟩
      · obtain rfl := Option.some.inj hs
        exact .inr ⟨hno, _, rfl, fun _ => rfl⟩
      · obtain rfl := Option.some.inj hs
        exact .inr ⟨hno, _, rfl, fun _ => rfl⟩
    · simp at hs
  | abandon =>
    simp only [step] at hs
    split at hs
    · simp at hs
    · obtain rfl := Option.some.inj hs
      exact .inl ⟨rfl, fun _ => rfl⟩

theorem subscribe_ending (running : Bool) :
    Ending TopicEvent.final TopicTask.sent (·.phase = .ended) (subscribe running) := by
  cases running with
  | true => exact ⟨by simp [Ends, subscribe], by simp [subscribe]⟩
  | false => exact ⟨by simp [Ends, subscribe], by simp [subscribe]⟩

end TopicTask

/-! ## A document -/

def DocumentEvent.isOpened : DocumentEvent → Bool
  | .opened _ => true
  | _ => false

/-- An event in the course of things. -/
def DocumentEvent.plain (e : DocumentEvent) : Prop := e.final = false ∧ e.isOpened = false

/-- `Opened`, no other, and at most one `Closed`, at the end; or just that; or
nothing yet. -/
def DocumentShape (events : List DocumentEvent) : Prop :=
  events = [] ∨ (∃ reason, events = [.closed reason]) ∨
    ∃ id rest, events = .opened id :: rest ∧ (∀ e ∈ rest, e.isOpened = false) ∧ Ends DocumentEvent.final rest

namespace DocumentTask

/-- Neither a command's answer nor a live event opens or ends a document. -/
theorem apply_plain {command : DocumentCommand} {answer : DocumentAnswer} {e : DocumentEvent}
    (h : apply command answer = some (.ok (some e))) : e.plain := by
  unfold apply at h
  split at h <;> simp only [Option.some.injEq, Except.ok.injEq, reduceCtorEq] at h
  all_goals
    rw [← h]
    exact ⟨rfl, rfl⟩

theorem report_plain {event : LiveEvent} {e : DocumentEvent} (h : report event = some e) : e.plain := by
  cases event with
  | pendingContentReady => simp [report] at h
  | _ =>
    rw [← Option.some.inj h]
    exact ⟨rfl, rfl⟩

/-- Out of the loop, or of the function. -/
def gone (t : DocumentTask) : Prop := t.phase = .closing ∨ t.phase = .ended

theorem step_speaks {t t' : DocumentTask} {a : Act} (hs : t.step a = some t') :
    Speaks DocumentEvent.final DocumentTask.sent gone t t' := by
  have hearly : ∀ {t : DocumentTask}, t.early = true ∨ t.phase = .store → ¬ t.gone := by
    intro t h hg
    rcases hg with hp | hp
    · simp [early, hp] at h
    · simp [early, hp] at h
  cases step_cases hs with
  | failed hphase reason => exact .inr ⟨hearly hphase, _, rfl, fun _ => .inr rfl⟩
  | engine hphase => exact .inl ⟨rfl, fun hg => by simp [gone, hphase] at hg⟩
  | document hphase id => exact .inl ⟨rfl, fun hg => by simp [gone, hphase] at hg⟩
  | author hphase author => exact .inl ⟨rfl, fun hg => by simp [gone, hphase] at hg⟩
  | opened hphase => exact .inr ⟨by simp [gone, hphase], _, rfl, by simp [DocumentEvent.final]⟩
  | store hphase => exact .inl ⟨rfl, fun hg => by simp [gone, hphase] at hg⟩
  | order command => exact .inl ⟨rfl, fun hg => hg⟩
  | drop => exact .inl ⟨rfl, fun hg => hg⟩
  | left hphase => exact .inl ⟨rfl, fun _ => .inl rfl⟩
  | done hphase hcommands happly => exact .inl ⟨rfl, fun hg => hg⟩
  | answered e hphase hcommands happly =>
    refine .inr ⟨by simp [gone, hphase], e, rfl, fun hf => ?_⟩
    simp [(apply_plain happly).1] at hf
  | closed hphase reason => exact .inr ⟨by simp [gone, hphase], _, rfl, fun _ => .inl rfl⟩
  | pending hphase => exact .inl ⟨rfl, fun hg => hg⟩
  | reported hphase he =>
    refine .inr ⟨by simp [gone, hphase], _, rfl, fun hf => ?_⟩
    simp [(report_plain he).1] at hf
  | unheard hphase he => exact .inr ⟨by simp [gone, hphase], _, rfl, fun _ => .inl rfl⟩
  | finished hphase => exact .inl ⟨rfl, fun _ => .inr rfl⟩
  | abandoned hphase => exact .inl ⟨rfl, fun _ => .inr rfl⟩

/-- `Opened` first, and no other. -/
def Opened (events : List DocumentEvent) : Prop :=
  ∃ id rest, events = .opened id :: rest ∧ ∀ e ∈ rest, e.isOpened = false

theorem Opened.concat {events : List DocumentEvent} (h : Opened events) {e : DocumentEvent} (he : e.isOpened = false) :
    Opened (events ++ [e]) := by
  obtain ⟨id, rest, rfl, hrest⟩ := h
  refine ⟨id, rest ++ [e], rfl, fun x hx => ?_⟩
  rcases List.mem_append.1 hx with hx | hx
  · exact hrest x hx
  · rw [List.mem_singleton.1 hx]
    exact he

/-- What has been sent, phase by phase. -/
structure Shaped (t : DocumentTask) : Prop where
  early : t.early = true → t.sent = []
  opened : t.phase = .store ∨ t.phase = .looping ∨ t.phase = .closing → Opened t.sent
  last : t.phase = .ended → t.sent = [] ∨ (∃ reason, t.sent = [.closed reason]) ∨ Opened t.sent

theorem Shaped.late {t : DocumentTask} (hphase : t.phase = .store ∨ t.phase = .looping ∨ t.phase = .closing)
    (h : Opened t.sent) : Shaped t where
  early := by
    intro he
    rcases hphase with hp | hp | hp <;> simp [DocumentTask.early, hp] at he
  opened _ := h
  last := by
    intro ho
    rcases hphase with hp | hp | hp <;> simp [hp] at ho

/-- Still before `Opened`. -/
theorem Shaped.still {t : DocumentTask} (hphase : t.early = true) (h : t.sent = []) : Shaped t where
  early _ := h
  opened := by
    intro hl
    rcases hl with hp | hp | hp <;> simp [DocumentTask.early, hp] at hphase
  last := by
    intro ho
    simp [DocumentTask.early, ho] at hphase

theorem Shaped.ended {t : DocumentTask} (hphase : t.phase = .ended)
    (h : t.sent = [] ∨ (∃ reason, t.sent = [.closed reason]) ∨ Opened t.sent) : Shaped t where
  early := by
    intro he
    simp [DocumentTask.early, hphase] at he
  opened := by
    intro hl
    rcases hl with hp | hp | hp <;> simp [hphase] at hp
  last _ := h

theorem Shaped.cases {t : DocumentTask} (h : Shaped t) :
    t.sent = [] ∨ (∃ reason, t.sent = [.closed reason]) ∨ Opened t.sent := by
  cases hp : t.phase with
  | engine | document | author | subscribing => exact .inl (h.early (by simp [DocumentTask.early, hp]))
  | store | looping | closing => exact .inr (.inr (h.opened (by simp [hp])))
  | ended => exact h.last hp

theorem shaped_step {t t' : DocumentTask} {a : Act} (h : Shaped t) (hs : t.step a = some t') : Shaped t' := by
  cases step_cases hs with
  | failed hphase reason =>
    refine .ended rfl (.inr ?_)
    rcases hphase with he | hp
    · exact .inl ⟨reason, by simp [fail, emit, h.early he]⟩
    · exact .inr ((h.opened (.inl hp)).concat rfl)
  | engine hphase => exact .still rfl (h.early (by simp [DocumentTask.early, hphase]))
  | document hphase id => exact .still rfl (h.early (by simp [DocumentTask.early, hphase]))
  | author hphase author => exact .still rfl (h.early (by simp [DocumentTask.early, hphase]))
  | opened hphase =>
    refine .late (.inl rfl) ⟨t.id, [], ?_, by simp⟩
    simp [emit, h.early (by simp [DocumentTask.early, hphase])]
  | store hphase => exact .late (.inr (.inl rfl)) (h.opened (.inl hphase))
  | order command => exact ⟨h.early, h.opened, h.last⟩
  | drop => exact ⟨h.early, h.opened, h.last⟩
  | left hphase => exact .late (.inr (.inr rfl)) (h.opened (.inr (.inl hphase)))
  | done hphase hcommands happly => exact ⟨h.early, h.opened, h.last⟩
  | answered e hphase hcommands happly =>
    exact .late (.inr (.inl hphase)) ((h.opened (.inr (.inl hphase))).concat (apply_plain happly).2)
  | closed hphase reason => exact .late (.inr (.inr rfl)) ((h.opened (.inr (.inl hphase))).concat rfl)
  | pending hphase => exact h
  | reported hphase he =>
    exact .late (.inr (.inl hphase)) ((h.opened (.inr (.inl hphase))).concat (report_plain he).2)
  | unheard hphase he =>
    exact .late (.inr (.inr rfl)) ((h.opened (.inr (.inl hphase))).concat (report_plain he).2)
  | finished hphase => exact .ended rfl (.inr (.inr (h.opened (.inr (.inr hphase)))))
  | abandoned hphase => exact .ended rfl h.cases

theorem spawn_ending (source : Source) (running : Bool) :
    Ending DocumentEvent.final DocumentTask.sent gone (spawn source running) ∧ Shaped (spawn source running) := by
  cases running with
  | true => exact ⟨⟨by simp [Ends, spawn], by simp [spawn]⟩, .still rfl rfl⟩
  | false => exact ⟨⟨by simp [Ends, spawn], by simp [spawn, gone]⟩, .ended rfl (.inr (.inl ⟨_, rfl⟩))⟩

theorem Opened.shape {events : List DocumentEvent} (h : Opened events) (hends : Ends DocumentEvent.final events) :
    DocumentShape events := by
  obtain ⟨id, rest, rfl, hrest⟩ := h
  refine .inr (.inr ⟨id, rest, rfl, hrest, fun e he => hends e ?_⟩)
  cases rest with
  | nil => simp at he
  | cons x rest =>
    rw [List.dropLast_cons_cons]
    exact List.mem_cons_of_mem _ he

/-- **What a document's task sends.** -/
theorem shape_run {source : Source} {running : Bool} {as : List Act} {t : DocumentTask}
    (hrun : Machine.run step (spawn source running) as = some t) : DocumentShape t.sent := by
  obtain ⟨hending, hshaped⟩ := spawn_ending source running
  have hends := (ending_run (fun _ _ _ hs => step_speaks hs) hrun hending).1
  have hshape : Shaped t := Machine.run_invariant (fun _ _ _ h hs => shaped_step h hs) hrun hshaped
  rcases hshape.cases with hnil | hclosed | hopened
  · exact .inl hnil
  · exact .inr (.inl hclosed)
  · exact hopened.shape hends

end DocumentTask

/-! ## A blob operation -/

/-- The items that the operation's loop reports on. -/
def Work.reports : Work → ProgressItem → Bool
  | .add _, .size _ | .add _, .copyProgress _ => true
  | .fetch .., .progress _ => true
  | .exportBlob _, .size _ | .exportBlob _, .copyProgress _ => true
  | _, _ => false

namespace TransferTask

/-- At its end, or gone with the runtime. -/
def gone (t : TransferTask) : Prop := t.phase = .done ∨ t.phase = .abandoned

/-- Every step, by what it sends. -/
inductive Stepped (t : TransferTask) : TransferTask → Prop
  | waits {phase} (hphase : phase ≠ .done ∧ phase ≠ .abandoned) : Stepped t { t with phase := phase }
  | skipped : Stepped t t
  | told (e : TransferEvent) (he : e.final = false) : Stepped t (t.emit e)
  | ended (e : TransferEvent) (he : e.final = true) : Stepped t { t.emit e with phase := .done }
  | abandoned : Stepped t { t with phase := .abandoned }

/-- Every step, by what it takes off the stream and what it sends. -/
inductive Turned (t : TransferTask) : Act → TransferTask → Prop
  | waits {a phase} (ha : ∀ item, a = .item (some item) → t.work.reports item = false)
      (hphase : phase ≠ .done ∧ phase ≠ .abandoned) : Turned t a { t with phase := phase }
  | skipped {item} (hitem : t.work.reports item = false) : Turned t (.item (some item)) t
  | told {item} (e : TransferEvent) (he : e.final = false) (hitem : t.work.reports item = true) :
      Turned t (.item (some item)) (t.emit e)
  | ended {a} (e : TransferEvent) (he : e.final = true) : Turned t a { t.emit e with phase := .done }
  | abandoned : Turned t .abandon { t with phase := .abandoned }

theorem Turned.stepped {t t' : TransferTask} {a : Act} (h : Turned t a t') : Stepped t t' := by
  cases h with
  | waits _ hphase => exact .waits hphase
  | skipped => exact .skipped
  | told e he => exact .told e he
  | ended e he => exact .ended e he
  | abandoned => exact .abandoned

theorem keep_turned (t : TransferTask) (hash : String) (tag : Option String) :
    Turned t (.item none) (t.keep hash tag) := by
  cases tag with
  | none => exact .ended _ rfl
  | some name => exact .waits (by simp) (by simp)

theorem forwardAdd_turned {t : TransferTask} {tag : Option String} (hwork : t.work = .add tag) (found : Option String)
    (item : Option ProgressItem) : Turned t (.item item) (t.forwardAdd tag found item) := by
  cases item with
  | none =>
    cases found with
    | none => exact .ended _ rfl
    | some hash => exact keep_turned t hash tag
  | some item =>
    cases item with
    | size | copyProgress => exact .told _ rfl (by rw [hwork, Work.reports])
    | done hash => exact .waits (by simp [hwork, Work.reports]) (by simp)
    | error reason => exact .ended _ rfl
    | progress | downloadError | other => exact .skipped (by simp [hwork, Work.reports])

theorem download_turned {t : TransferTask} {hash : String} {tag : Option String} (hwork : t.work = .fetch hash tag)
    (item : Option ProgressItem) : Turned t (.item item) (t.download hash tag item) := by
  cases item with
  | none => exact keep_turned t hash tag
  | some item =>
    cases item with
    | progress done => exact .told _ rfl (by rw [hwork, Work.reports])
    | error | downloadError => exact .ended _ rfl
    | size | copyProgress | done | other => exact .skipped (by simp [hwork, Work.reports])

theorem exportBlob_turned {t : TransferTask} {hash : String} (hwork : t.work = .exportBlob hash)
    (item : Option ProgressItem) : Turned t (.item item) (t.exportBlob hash item) := by
  cases item with
  | none => exact .ended _ rfl
  | some item =>
    cases item with
    | size | copyProgress => exact .told _ rfl (by rw [hwork, Work.reports])
    | error reason => exact .ended _ rfl
    | progress | done | downloadError | other => exact .skipped (by simp [hwork, Work.reports])

theorem step_turned {t t' : TransferTask} {a : Act} (hs : t.step a = some t') : ¬ t.gone ∧ Turned t a t' := by
  cases a with
  | opened outcome =>
    simp only [step] at hs
    split at hs
    next hphase =>
      refine ⟨by simp [gone, hphase], ?_⟩
      cases outcome with
      | error reason =>
        obtain rfl := Option.some.inj hs
        exact .ended _ rfl
      | ok _ =>
        dsimp only at hs
        split at hs
        all_goals
          obtain rfl := Option.some.inj hs
          exact .waits (by simp) (by simp)
    · simp at hs
  | started outcome =>
    simp only [step] at hs
    split at hs
    next hphase =>
      refine ⟨by simp [gone, hphase], ?_⟩
      cases outcome with
      | error reason =>
        obtain rfl := Option.some.inj hs
        exact .ended _ rfl
      | ok _ =>
        obtain rfl := Option.some.inj hs
        exact .waits (by simp) (by simp)
    · simp at hs
  | item item =>
    simp only [step] at hs
    split at hs
    next found hphase =>
      refine ⟨by simp [gone, hphase], ?_⟩
      split at hs
      next hwork =>
        obtain rfl := Option.some.inj hs
        exact forwardAdd_turned hwork found item
      next hwork =>
        obtain rfl := Option.some.inj hs
        exact download_turned hwork item
      next hwork =>
        obtain rfl := Option.some.inj hs
        exact exportBlob_turned hwork item
      · simp at hs
    · simp at hs
  | kept outcome | read outcome =>
    simp only [step] at hs
    split at hs
    next hash hphase =>
      refine ⟨by simp [gone, hphase], ?_⟩
      cases outcome with
      | ok _ | error reason =>
        obtain rfl := Option.some.inj hs
        exact .ended _ rfl
    · simp at hs
  | abandon =>
    simp only [step] at hs
    split at hs
    · simp at hs
    next hgoing =>
      obtain rfl := Option.some.inj hs
      exact ⟨hgoing, .abandoned⟩

theorem step_cases {t t' : TransferTask} {a : Act} (hs : t.step a = some t') : ¬ t.gone ∧ Stepped t t' :=
  (step_turned hs).imp_right Turned.stepped

theorem step_speaks {t t' : TransferTask} {a : Act} (hs : t.step a = some t') :
    Speaks TransferEvent.final TransferTask.sent gone t t' := by
  obtain ⟨hgoing, hstep⟩ := step_cases hs
  cases hstep with
  | waits hphase => exact .inl ⟨rfl, fun hg => absurd hg hgoing⟩
  | skipped => exact .inl ⟨rfl, fun hg => hg⟩
  | told e he => exact .inr ⟨hgoing, e, rfl, fun hf => by simp [he] at hf⟩
  | ended e he => exact .inr ⟨hgoing, e, rfl, fun _ => .inl rfl⟩
  | abandoned => exact .inl ⟨rfl, fun _ => .inr rfl⟩

/-- A task that ran to its end has said how it went. -/
def Answered (t : TransferTask) : Prop := t.phase = .done → ∃ before e, t.sent = before ++ [e] ∧ e.final = true

theorem answered_step {t t' : TransferTask} {a : Act} (hs : t.step a = some t') : Answered t' := by
  obtain ⟨hgoing, hstep⟩ := step_cases hs
  cases hstep with
  | waits hphase => exact fun hd => absurd hd hphase.1
  | skipped => exact fun hd => absurd (.inl hd) hgoing
  | told e he => exact fun hd => absurd (.inl hd) hgoing
  | ended e he => exact fun _ => ⟨t.sent, e, rfl, he⟩
  | abandoned => exact fun hd => by simp at hd

theorem spawn_ending (work : Work) (running : Bool) :
    Ending TransferEvent.final TransferTask.sent gone (spawn work running) ∧ Answered (spawn work running) := by
  cases running with
  | true => exact ⟨⟨by simp [Ends, spawn], by simp [spawn]⟩, fun hd => by simp [spawn] at hd⟩
  | false => exact ⟨⟨by simp [Ends, spawn], by simp [spawn, gone]⟩, fun _ => ⟨[], _, rfl, rfl⟩⟩

end TransferTask

/-! ## The objects -/

/-- Exactly one of these ends the signals of a transfer. -/
def TransferSignal.final : TransferSignal → Bool
  | .completed .. | .failed _ => true
  | .progress .. => false

/-- The topic's task loses its handle with the object's channel. -/
def TopicTask.dropped (t : TopicTask) : TopicTask := { t with held := false }

/-- A topic's object and its task. -/
abbrev WatchedTopic := Watched TopicTask TopicEvent (List TopicEvent)

namespace WatchedTopic

def subscribe (ticking running : Bool) : WatchedTopic :=
  Watched.wrap ticking (.subscribe running) (TopicTask.subscribe running).sent running (!running) []

def step : WatchedTopic → Watched.Act TopicTask.Act → Option WatchedTopic :=
  Watched.next TopicEvent.final TopicTask.step TopicTask.sent TopicTask.dropped IrohTopic.handle

/-- The signals of a topic are the events up to some point. -/
theorem own_prefix {ticking running : Bool} {as : List (Watched.Act TopicTask.Act)} {w : WatchedTopic}
    (hrun : Machine.run step (subscribe ticking running) as = some w) : w.object.own <+: w.task.sent := by
  have hown : ∀ (o : IrohTopic) e, (IrohTopic.handle o e).own = o.own ++ [e] := by
    intro o e
    cases e <;> rfl
  obtain ⟨seen, hseen, hpre⟩ := Watched.own_eq (fun own e => own ++ [e]) hrun
    (fun _ _ _ hs => (TopicTask.step_speaks hs).grow) (fun _ => rfl) hown IrohTopic.closes
  have hfold : ∀ (l start : List TopicEvent), l.foldl (fun own e => own ++ [e]) start = start ++ l := by
    intro l
    induction l with
    | nil => simp
    | cons e l ih => simp [ih]
  rw [hseen, hfold, List.nil_append]
  exact hpre

end WatchedTopic

/-- A transfer's object and its task, which does not mind being unheard. -/
abbrev WatchedTransfer := Watched TransferTask TransferEvent TransferFields

namespace WatchedTransfer

def spawn (ticking : Bool) (work : Work) (running : Bool) : WatchedTransfer :=
  Watched.wrap ticking (.spawn work running) (TransferTask.spawn work running).sent running (!running) {}

def step : WatchedTransfer → Watched.Act TransferTask.Act → Option WatchedTransfer :=
  Watched.next TransferEvent.final TransferTask.step TransferTask.sent id IrohTransfer.handle

/-- What an event makes of a transfer's fields. -/
def fold (f : TransferFields) (e : TransferEvent) : TransferFields :=
  (IrohTransfer.handle (Object.wrap false (.unspawned none) f) e).own

/-- One signal for each event, final for final ones. -/
theorem fold_emitted (events : List TransferEvent) (f : TransferFields) :
    (events.foldl fold f).emitted.map TransferSignal.final =
      f.emitted.map TransferSignal.final ++ events.map TransferEvent.final := by
  induction events generalizing f with
  | nil => simp
  | cons e events ih =>
    have hone : (fold f e).emitted.map TransferSignal.final = f.emitted.map TransferSignal.final ++ [e.final] := by
      cases e <;> simp [fold, IrohTransfer.handle, IrohTransfer.emitLater, Object.wrap, Object.finished,
        TransferSignal.final, TransferEvent.final]
    rw [List.foldl_cons, ih, hone, List.map_cons, List.append_assoc]
    rfl

theorem emitted_final {ticking running : Bool} {work : Work} {as : List (Watched.Act TransferTask.Act)}
    {w : WatchedTransfer} (hrun : Machine.run step (spawn ticking work running) as = some w) :
    w.object.own.emitted.map TransferSignal.final <+: w.task.sent.map TransferEvent.final := by
  have hown : ∀ (o : IrohTransfer) e, (IrohTransfer.handle o e).own = fold o.own e := by
    intro o e
    cases e <;> rfl
  obtain ⟨seen, hseen, hpre⟩ := Watched.own_eq fold hrun (fun _ _ _ hs => (TransferTask.step_speaks hs).grow)
    (fun _ => rfl) hown IrohTransfer.closes
  rw [hseen, fold_emitted, List.map_nil, List.nil_append]
  exact hpre.map _

end WatchedTransfer

end Gdiroh.Endpoint
