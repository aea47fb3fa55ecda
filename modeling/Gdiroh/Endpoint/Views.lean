/-
What script sees of a task through the object in front of it: the signals the
object emits, and what its getters answer in between. The neighbours of a topic
are shared with its task (`gossip.rs`), so `neighbors` can run ahead of the
signals (`topic.rs`); a document's id (`document.rs`) and a transfer's figures
(`transfer.rs`) are the object's own, and follow them.

Everything here is about every run: the task answers as it likes, script calls
when it likes, and the object may be dropped at any time.
-/
import Gdiroh.Endpoint.Endings

namespace Gdiroh.Endpoint

open Polled

/-! ## The steps of a topic's task -/

namespace TopicTask

/-- What comes is a failure, the end of the stream, for having fallen behind or
otherwise, or the end of the runtime. -/
def Act.fails : Act → Bool
  | .subscribed (.error _) | .command (.error _) | .event (some (.error _)) | .event (some (.ok .lagged))
  | .event none | .abandon => true
  | _ => false

/-- Every step, by what it changes. -/
inductive Stepped (t : TopicTask) : Act → TopicTask → Prop
  | subscribed (hphase : t.phase = .subscribing) : Stepped t (.subscribed (.ok ())) { t with phase := .looping }
  | order (command : TopicCommand) (hheld : t.held = true) :
      Stepped t (.order command) { t with commands := t.commands ++ [command] }
  | drop : Stepped t .drop { t with held := false }
  | left {outcome} (hphase : t.phase = .looping) (hcommands : t.commands = []) (hheld : t.held = false) :
      Stepped t (.command outcome) { t with phase := .ended }
  | done {command rest} (hphase : t.phase = .looping) (hcommands : t.commands = command :: rest) :
      Stepped t (.command (.ok ())) { t with commands := rest }
  | told {event} (hphase : t.phase = .looping) (hmore : (t.report event).2 = true) :
      Stepped t (.event (some (.ok event))) (t.report event).1
  | finished {event} (hphase : t.phase = .looping) (hmore : (t.report event).2 = false) :
      Stepped t (.event (some (.ok event))) { (t.report event).1 with phase := .ended }
  | failed {a} (hphase : t.phase ≠ .ended) (ha : a.fails = true) (reason : String) : Stepped t a (t.close reason)
  | abandoned (hphase : t.phase ≠ .ended) : Stepped t .abandon { t with phase := .ended }

theorem step_cases {t t' : TopicTask} {a : Act} (hs : t.step a = some t') : Stepped t a t' := by
  cases a with
  | subscribed outcome =>
    simp only [step] at hs
    split at hs
    next hphase =>
      cases outcome with
      | ok _ =>
        obtain rfl := Option.some.inj hs
        exact .subscribed hphase
      | error reason =>
        obtain rfl := Option.some.inj hs
        exact .failed (by simp [hphase]) rfl reason
    · simp at hs
  | order command =>
    simp only [step] at hs
    split at hs
    next hheld =>
      obtain rfl := Option.some.inj hs
      exact .order command hheld
    · simp at hs
  | drop =>
    obtain rfl := Option.some.inj hs
    exact .drop
  | command outcome =>
    simp only [step] at hs
    split at hs
    next hphase =>
      split at hs
      next hcommands =>
        split at hs
        · simp at hs
        next hheld =>
          obtain rfl := Option.some.inj hs
          exact .left hphase hcommands (by simpa using hheld)
      next command rest hcommands =>
        cases outcome with
        | ok _ =>
          obtain rfl := Option.some.inj hs
          exact .done hphase hcommands
        | error reason =>
          obtain rfl := Option.some.inj hs
          exact .failed (by simp [hphase]) rfl reason
    · simp at hs
  | event item =>
    simp only [step] at hs
    split at hs
    next hphase =>
      split at hs
      next event =>
        split at hs
        next hmore =>
          obtain rfl := Option.some.inj hs
          exact .told hphase hmore
        next hmore =>
          obtain rfl := Option.some.inj hs
          exact .finished hphase (by simpa using hmore)
      next reason =>
        obtain rfl := Option.some.inj hs
        exact .failed (by simp [hphase]) rfl reason
      · obtain rfl := Option.some.inj hs
        exact .failed (by simp [hphase]) rfl _
    · simp at hs
  | abandon =>
    simp only [step] at hs
    split at hs
    · simp at hs
    next hphase =>
      obtain rfl := Option.some.inj hs
      exact .abandoned hphase

end TopicTask

/-! ## The neighbours of a topic -/

/-- What an event makes of the neighbours. -/
def TopicEvent.adjust (peers : Finset String) : TopicEvent → Finset String
  | .neighborUp peer => insert peer peers
  | .neighborDown peer => peers.erase peer
  | .message .. | .lagged | .closed _ => peers

/-- The last that was said of the peer's being a neighbour is that it is one. -/
def LastUp (events : List TopicEvent) (peer : String) : Prop :=
  ∃ before after, events = before ++ .neighborUp peer :: after ∧ .neighborDown peer ∉ after

theorem lastUp_concat {events : List TopicEvent} {e : TopicEvent} {peer : String} :
    LastUp (events ++ [e]) peer ↔ e = .neighborUp peer ∨ LastUp events peer ∧ e ≠ .neighborDown peer := by
  constructor
  · rintro ⟨before, after, he, hdown⟩
    rcases List.eq_nil_or_concat after with rfl | ⟨after, last, rfl⟩
    · exact .inl (List.append_inj_right' he rfl |> List.singleton_injective)
    · rw [List.concat_eq_append, ← List.cons_append, ← List.append_assoc] at he
      obtain ⟨hevents, hlast⟩ := List.append_inj' he rfl
      obtain rfl := List.singleton_injective hlast
      simp only [List.concat_eq_append, List.mem_append, List.mem_singleton, not_or] at hdown
      exact .inr ⟨⟨before, after, hevents, hdown.1⟩, Ne.symm hdown.2⟩
  · rintro (rfl | ⟨⟨before, after, rfl, hdown⟩, hne⟩)
    · exact ⟨events, [], rfl, by simp⟩
    · refine ⟨before, after ++ [e], by simp, ?_⟩
      simp only [List.mem_append, List.mem_singleton, not_or]
      exact ⟨hdown, Ne.symm hne⟩

theorem mem_foldl_adjust {events : List TopicEvent} {peer : String} :
    peer ∈ events.foldl TopicEvent.adjust ∅ ↔ LastUp events peer := by
  induction events using List.reverseRecOn with
  | nil => simp [LastUp]
  | append_singleton events e ih =>
    rw [List.foldl_append, List.foldl_cons, List.foldl_nil, lastUp_concat, ← ih]
    cases e with
    | neighborUp q => simp [TopicEvent.adjust, eq_comm]
    | neighborDown q => simp [TopicEvent.adjust, and_comm, eq_comm]
    | message | lagged | closed => simp [TopicEvent.adjust]

namespace TopicTask

/-- `report` tells one event, and keeps the neighbours by it. -/
theorem report_eq (t : TopicTask) (event : SwarmEvent) : ∃ e : TopicEvent,
    (t.report event).1 = { t with neighbors := e.adjust t.neighbors, sent := t.sent ++ [e] } := by
  cases event with
  | neighborUp peer => exact ⟨.neighborUp peer, rfl⟩
  | neighborDown peer => exact ⟨.neighborDown peer, rfl⟩
  | received content deliveredFrom direct => exact ⟨.message content deliveredFrom direct, rfl⟩
  | lagged => exact ⟨.lagged, rfl⟩

/-- The neighbours are what the events sent so far make of them. -/
def Told (t : TopicTask) : Prop := t.neighbors = t.sent.foldl TopicEvent.adjust ∅

theorem told_step {t t' : TopicTask} {a : Act} (h : Told t) (hs : t.step a = some t') : Told t' := by
  have hreport : ∀ event, Told (t.report event).1 := by
    intro event
    obtain ⟨e, he⟩ := t.report_eq event
    rw [he]
    simp [Told, ← h.symm]
  cases step_cases hs with
  | told => exact hreport _
  | finished => exact hreport _
  | failed hphase ha reason => simpa [Told, close, TopicEvent.adjust] using h
  | subscribed | order | drop | left | done | abandoned => exact h

end TopicTask

namespace WatchedTopic

/-- `neighbors` of the object: without a channel there are none to ask for. -/
def neighbors (w : WatchedTopic) : Finset String := if w.object.channel.isSome then w.task.neighbors else ∅

theorem foldl_concat {α : Type*} (l start : List α) : l.foldl (fun own e => own ++ [e]) start = start ++ l := by
  induction l generalizing start with
  | nil => simp
  | cons e l ih => simp [ih]

/-- The signals, and then what waits, are the events. -/
theorem signals_waiting {ticking running : Bool} {as : List (Watched.Act TopicTask.Act)} {w : WatchedTopic}
    (hrun : Machine.run step (subscribe ticking running) as = some w) :
    ∀ p ∈ w.object.channel, w.object.own ++ p.queue = w.task.sent := by
  have hown : ∀ (o : IrohTopic) e, (IrohTopic.handle o e).own = o.own ++ [e] := by
    intro o e
    cases e <;> rfl
  obtain ⟨seen, hseen, -, hrest⟩ := Watched.reads_run (fun own e => own ++ [e]) hrun
    (fun _ _ _ hs => (TopicTask.step_speaks hs).grow) (fun _ => rfl) hown IrohTopic.closes
  intro p hp
  rw [hseen, foldl_concat, List.nil_append]
  exact hrest p hp

end WatchedTopic

/-! ## The id of a document -/

/-- The document's task loses its handle with the object's channel. -/
def DocumentTask.dropped (t : DocumentTask) : DocumentTask := { t with held := false }

theorem DocumentShape.isPre {events before : List DocumentEvent} (h : DocumentShape events) (hpre : before <+: events) :
    DocumentShape before := by
  rcases List.eq_nil_or_concat before with rfl | ⟨init, last, rfl⟩
  · exact .inl rfl
  rcases h with rfl | ⟨reason, rfl⟩ | ⟨id, rest, rfl, hrest, hends⟩
  · exact absurd (List.prefix_nil.1 hpre) (by simp)
  · obtain ⟨more, hmore⟩ := hpre
    rcases List.append_eq_singleton_iff.1 hmore with ⟨hnil, -⟩ | ⟨hone, -⟩
    · simp at hnil
    · exact .inr (.inl ⟨reason, hone⟩)
  · cases hbefore : init.concat last with
    | nil => exact .inl rfl
    | cons e before =>
      rw [hbefore] at hpre
      obtain ⟨rfl, htail⟩ := List.cons_prefix_cons.1 hpre
      exact .inr (.inr ⟨id, before, rfl, fun x hx => hrest x (htail.subset hx), hends.isPre htail⟩)

/-- A document's object and its task. -/
abbrev WatchedDocument := Watched DocumentTask DocumentEvent DocumentFields

namespace WatchedDocument

def spawn (ticking : Bool) (source : Source) (running : Bool) : WatchedDocument :=
  Watched.wrap ticking (.spawn source running) (DocumentTask.spawn source running).sent running (!running) {}

def step : WatchedDocument → Watched.Act DocumentTask.Act → Option WatchedDocument :=
  Watched.next DocumentEvent.final DocumentTask.step DocumentTask.sent DocumentTask.dropped IrohDocument.handle

/-- What an event makes of a document's fields. -/
def fold (f : DocumentFields) (e : DocumentEvent) : DocumentFields :=
  (IrohDocument.handle (Object.wrap false (.unspawned none) f) e).own

theorem fold_emitted (f : DocumentFields) (e : DocumentEvent) : (fold f e).emitted = f.emitted ++ [e] := by
  cases e <;> rfl

theorem handle_own (o : IrohDocument) (e : DocumentEvent) : (IrohDocument.handle o e).own = fold o.own e := by
  cases e <;> rfl

theorem foldl_emitted (events : List DocumentEvent) (f : DocumentFields) :
    (events.foldl fold f).emitted = f.emitted ++ events := by
  induction events generalizing f with
  | nil => simp
  | cons e events ih => rw [List.foldl_cons, ih, fold_emitted, List.append_assoc, List.singleton_append]

/-- Only `Opened` touches the id. -/
theorem foldl_id (events : List DocumentEvent) (f : DocumentFields) (h : ∀ e ∈ events, e.isOpened = false) :
    (events.foldl fold f).id = f.id := by
  induction events generalizing f with
  | nil => rfl
  | cons e events ih =>
    rw [List.foldl_cons, ih _ fun x hx => h x (List.mem_cons_of_mem e hx)]
    have he := h e List.mem_cons_self
    cases e with
    | opened => simp [DocumentEvent.isOpened] at he
    | _ => rfl

theorem reads {ticking running : Bool} {source : Source} {as : List (Watched.Act DocumentTask.Act)}
    {w : WatchedDocument} (hrun : Machine.run step (spawn ticking source running) as = some w) :
    Watched.Reads DocumentTask.sent fold {} w :=
  Watched.reads_run fold hrun (fun _ _ _ hs => (DocumentTask.step_speaks hs).grow) (fun _ => rfl) handle_own
    IrohDocument.closes

/-- What the task behind a document has sent. -/
theorem task_shape {ticking running : Bool} {source : Source} {as : List (Watched.Act DocumentTask.Act)}
    {w : WatchedDocument} (hrun : Machine.run step (spawn ticking source running) as = some w) :
    DocumentShape w.task.sent := by
  obtain ⟨hending, hshaped⟩ := DocumentTask.spawn_ending source running
  have hends : Ending DocumentEvent.final DocumentTask.sent DocumentTask.gone w.task :=
    Watched.task_run hrun (fun _ _ _ h hs => (DocumentTask.step_speaks hs).ending h) (fun _ h => h) hending
  have hshape : DocumentTask.Shaped w.task :=
    Watched.task_run hrun (fun _ _ _ h hs => DocumentTask.shaped_step h hs) (fun _ h => ⟨h.early, h.opened, h.last⟩)
      hshaped
  rcases hshape.cases with hnil | hclosed | hopened
  · exact .inl hnil
  · exact .inr (.inl hclosed)
  · exact hopened.shape hends.1

/-- **A document's signals and its id.** In every run, a document emits
nothing, or just `closed`, or `opened` first and never again, and then anything
with at most one `closed`, at the end. Its id is the one `opened` carried, and
empty before; and while it is open no `closed` has been emitted. -/
theorem id_signalled {ticking running : Bool} {source : Source} {as : List (Watched.Act DocumentTask.Act)}
    {w : WatchedDocument} (hrun : Machine.run step (spawn ticking source running) as = some w) :
    DocumentShape w.object.own.emitted ∧ (∀ id, .opened id ∈ w.object.own.emitted → w.object.own.id = id) ∧
      ((∀ id, .opened id ∉ w.object.own.emitted) → w.object.own.id = "") ∧
      (w.object.channel.isSome = true → ∀ reason, .closed reason ∉ w.object.own.emitted) := by
  obtain ⟨seen, hown, hseen, -⟩ := reads hrun
  have hemitted : w.object.own.emitted = seen := by rw [hown, foldl_emitted, List.nil_append]
  have hshape : DocumentShape seen := (task_shape hrun).isPre hseen
  have hopen : w.object.channel.isSome = true → ∀ e ∈ w.object.own.emitted, e.final = false := by
    refine Watched.open_run (I := fun f : DocumentFields => ∀ e ∈ f.emitted, e.final = false) hrun
      (fun f e he h x hx => ?_) handle_own IrohDocument.closes (fun _ => by simp [spawn, Watched.wrap, Object.wrap])
    rw [fold_emitted] at hx
    rcases List.mem_append.1 hx with hx | hx
    · exact h x hx
    · exact List.mem_singleton.1 hx ▸ he
  rw [hemitted]
  refine ⟨hshape, fun id hid => ?_, fun hnone => ?_, fun hsome reason hclosed => ?_⟩
  · rcases hshape with rfl | ⟨reason, rfl⟩ | ⟨id', rest, rfl, hrest, -⟩
    · simp at hid
    · simp at hid
    · have hfirst : DocumentEvent.opened id = .opened id' := by
        rcases List.mem_cons.1 hid with he | hid
        · exact he
        · simpa [DocumentEvent.isOpened] using hrest _ hid
      obtain rfl := DocumentEvent.opened.inj hfirst
      rw [hown, List.foldl_cons, foldl_id rest _ hrest]
      rfl
  · rw [hown, foldl_id seen _ fun e he => ?_]
    cases e with
    | opened id => exact absurd he (hnone id)
    | _ => rfl
  · have hno : true = false := hopen hsome (.closed reason) (hemitted ▸ hclosed)
    simp at hno

/-- A document that opens and is then closed by its engine. -/
theorem id_signalled_closed : ∃ w, Machine.run step (spawn true .create true)
    [.task (.engine (.ok ())), .task (.document (.ok (some "id"))), .task (.author (.ok "author")),
      .task (.subscribed (.ok ())), .task (.store (.ok ())), .drain, .task (.update none), .drain] = some w ∧
    w.object.own.emitted.length = 2 ∧ DocumentShape w.object.own.emitted ∧ w.object.own.id = "id" := by
  have hrun : ((Machine.run step (spawn true .create true)
      [.task (.engine (.ok ())), .task (.document (.ok (some "id"))), .task (.author (.ok "author")),
        .task (.subscribed (.ok ())), .task (.store (.ok ())), .drain, .task (.update none), .drain]).map fun w =>
      (w.object.own.emitted.length, w.object.own.id)) = some (2, "id") := by
    decide +kernel
  obtain ⟨w, hw, he⟩ := Option.map_eq_some_iff.1 hrun
  simp only [Prod.mk.injEq] at he
  exact ⟨w, hw, he.1, (id_signalled hw).1, he.2⟩

end WatchedDocument

/-! ## The figures of a transfer -/

/-- The operation learns how large its blob is. -/
def Work.sized : Work → Bool
  | .add _ | .exportBlob _ => true
  | .fetch .. | .read _ => false

/-- The operation reports how far it is. -/
def Work.moves : Work → Bool
  | .add _ | .fetch .. | .exportBlob _ => true
  | .read _ => false

/-- The blob that was asked for. -/
def Work.asked : Work → Option String
  | .add _ => none
  | .fetch hash _ | .exportBlob hash | .read hash => some hash

/-- What an operation can tell of how it ended: the blob it was asked for, and
contents only of one that is read. -/
def Work.Ends (work : Work) (hash : String) (data : Bytes) : Prop :=
  (∀ asked ∈ work.asked, hash = asked) ∧ (work.moves = true → data = [])

/-- The events an operation can send. -/
def Work.Tells (work : Work) : TransferEvent → Prop
  | .size _ => work.sized = true
  | .progress _ => work.moves = true
  | .done hash data => work.Ends hash data
  | .failed _ => True

/-- The signals a transfer can emit. -/
def Work.Shows (work : Work) : TransferSignal → Prop
  | .progress _ total => work.moves = true ∧ (work.sized = false → total = 0)
  | .completed hash data => work.Ends hash data
  | .failed _ => True

namespace TransferTask

/-- What a task has sent and is about to send is what its operation can tell. -/
structure Honest (t : TransferTask) : Prop where
  sound : ∀ e ∈ t.sent, t.work.Tells e
  keeping : ∀ hash, t.phase = .keeping hash → t.work.Ends hash []
  reading : ∀ hash, t.phase = .reading hash → t.work = .read hash

theorem Honest.waits {t : TransferTask} (h : Honest t) {phase : TransferPhase}
    (hkeeping : ∀ hash, phase = .keeping hash → t.work.Ends hash [])
    (hreading : ∀ hash, phase = .reading hash → t.work = .read hash) : Honest { t with phase := phase } :=
  ⟨h.sound, hkeeping, hreading⟩

theorem Honest.told {t : TransferTask} (h : Honest t) {e : TransferEvent} (he : t.work.Tells e) : Honest (t.emit e) where
  sound x hx := by
    rcases List.mem_append.1 hx with hx | hx
    · exact h.sound x hx
    · exact List.mem_singleton.1 hx ▸ he
  keeping := h.keeping
  reading := h.reading

/-- The task's last event. -/
theorem Honest.last {t : TransferTask} (h : Honest t) {e : TransferEvent} (he : t.work.Tells e) :
    Honest { t.emit e with phase := .done } :=
  (h.told he).waits (by simp) (by simp)

theorem Honest.keep {t : TransferTask} (h : Honest t) {hash : String} (hends : t.work.Ends hash [])
    (tag : Option String) : Honest (t.keep hash tag) := by
  cases tag with
  | none => exact h.last hends
  | some name =>
    refine h.waits (fun hash' he => ?_) (by simp)
    obtain rfl := TransferPhase.keeping.inj he
    exact hends

theorem honest_add {t : TransferTask} (h : Honest t) {tag : Option String} (hwork : t.work = .add tag)
    (found : Option String) (item : Option ProgressItem) : Honest (t.forwardAdd tag found item) := by
  have hends : ∀ hash, t.work.Ends hash [] := fun hash => ⟨by simp [hwork, Work.asked], fun _ => rfl⟩
  cases item with
  | none =>
    cases found with
    | none => exact h.last trivial
    | some hash => exact h.keep (hends hash) tag
  | some item =>
    cases item with
    | size size => exact h.told (by rw [hwork]; rfl)
    | copyProgress done => exact h.told (by rw [hwork]; rfl)
    | done hash => exact h.waits (by simp) (by simp)
    | error reason => exact h.last trivial
    | progress | downloadError | other => exact h

theorem honest_fetch {t : TransferTask} (h : Honest t) {hash : String} {tag : Option String}
    (hwork : t.work = .fetch hash tag) (item : Option ProgressItem) : Honest (t.download hash tag item) := by
  have hends : t.work.Ends hash [] := ⟨by simp [hwork, Work.asked], fun _ => rfl⟩
  cases item with
  | none => exact h.keep hends tag
  | some item =>
    cases item with
    | progress done => exact h.told (by rw [hwork]; rfl)
    | error | downloadError => exact h.last trivial
    | size | copyProgress | done | other => exact h

theorem honest_export {t : TransferTask} (h : Honest t) {hash : String} (hwork : t.work = .exportBlob hash)
    (item : Option ProgressItem) : Honest (t.exportBlob hash item) := by
  have hends : t.work.Ends hash [] := ⟨by simp [hwork, Work.asked], fun _ => rfl⟩
  cases item with
  | none => exact h.last hends
  | some item =>
    cases item with
    | size size => exact h.told (by rw [hwork]; rfl)
    | copyProgress done => exact h.told (by rw [hwork]; rfl)
    | error reason => exact h.last trivial
    | progress | downloadError | done | other => exact h

theorem honest_step {t t' : TransferTask} {a : Act} (h : Honest t) (hs : t.step a = some t') : Honest t' := by
  cases a with
  | opened outcome =>
    simp only [step] at hs
    split at hs
    next hphase =>
      cases outcome with
      | error reason =>
        obtain rfl := Option.some.inj hs
        exact h.last trivial
      | ok _ =>
        dsimp only at hs
        split at hs
        · obtain rfl := Option.some.inj hs
          exact h.waits (by simp) (by simp)
        · obtain rfl := Option.some.inj hs
          exact h.waits (by simp) (by simp)
        · obtain rfl := Option.some.inj hs
          exact h.waits (by simp) (by simp)
        next hash hwork =>
          obtain rfl := Option.some.inj hs
          refine h.waits (by simp) fun hash' he => ?_
          rw [hwork, TransferPhase.reading.inj he]
    · simp at hs
  | started outcome =>
    simp only [step] at hs
    split at hs
    next hphase =>
      cases outcome with
      | error reason =>
        obtain rfl := Option.some.inj hs
        exact h.last trivial
      | ok _ =>
        obtain rfl := Option.some.inj hs
        exact h.waits (by simp) (by simp)
    · simp at hs
  | item item =>
    simp only [step] at hs
    split at hs
    next found hphase =>
      split at hs
      next tag hwork =>
        obtain rfl := Option.some.inj hs
        exact honest_add h hwork found item
      next hash tag hwork =>
        obtain rfl := Option.some.inj hs
        exact honest_fetch h hwork item
      next hash hwork =>
        obtain rfl := Option.some.inj hs
        exact honest_export h hwork item
      · simp at hs
    · simp at hs
  | kept outcome =>
    simp only [step] at hs
    split at hs
    next hash hphase =>
      cases outcome with
      | ok _ =>
        obtain rfl := Option.some.inj hs
        exact h.last (h.keeping hash hphase)
      | error reason =>
        obtain rfl := Option.some.inj hs
        exact h.last trivial
    · simp at hs
  | read outcome =>
    simp only [step] at hs
    split at hs
    next hash hphase =>
      cases outcome with
      | ok data =>
        obtain rfl := Option.some.inj hs
        refine h.last ?_
        rw [h.reading hash hphase]
        exact ⟨by simp [Work.asked], by simp [Work.moves]⟩
      | error reason =>
        obtain rfl := Option.some.inj hs
        exact h.last trivial
    · simp at hs
  | abandon =>
    simp only [step] at hs
    split at hs
    · simp at hs
    · obtain rfl := Option.some.inj hs
      exact h.waits (by simp) (by simp)

theorem spawn_honest (work : Work) (running : Bool) : Honest (spawn work running) := by
  cases running with
  | true => exact ⟨by simp [spawn], by simp [spawn], by simp [spawn]⟩
  | false => exact ⟨by simp [spawn, Work.Tells], by simp [spawn], by simp [spawn]⟩

theorem work_step {t t' : TransferTask} {a : Act} (hs : t.step a = some t') : t'.work = t.work := by
  cases (step_turned hs).2 with
  | waits | skipped | told | ended | abandoned => rfl

end TransferTask

/-- What the signals say so far: the figures reported last, and the hash. -/
def TransferSignal.figures (f : Int64 × Int64 × String) : TransferSignal → Int64 × Int64 × String
  | .progress done total => (done, total, f.2.2)
  | .completed hash _ => (f.1, f.2.1, hash)
  | .failed _ => f

namespace WatchedTransfer

theorem handle_own (o : IrohTransfer) (e : TransferEvent) : (IrohTransfer.handle o e).own = fold o.own e := by
  cases e <;> rfl

/-- The getters agree with the signals. -/
def Agrees (f : TransferFields) : Prop :=
  f.emitted.foldl TransferSignal.figures (0, 0, "") = (f.done.toInt64, f.total.toInt64, f.hash)

theorem agrees_fold {f : TransferFields} (h : Agrees f) (e : TransferEvent) : Agrees (fold f e) := by
  unfold Agrees at h
  cases e with
  | size | progress | done | failed =>
    simp [Agrees, fold, IrohTransfer.handle, IrohTransfer.emitLater, Object.wrap, Object.finished,
      TransferSignal.figures, List.foldl_append, h]

/-- The signals are such as the operation can emit. -/
def Fits (work : Work) (f : TransferFields) : Prop :=
  (∀ s ∈ f.emitted, work.Shows s) ∧ (work.sized = false → f.total = 0)

theorem fits_fold {work : Work} {f : TransferFields} (h : Fits work f) {e : TransferEvent} (he : work.Tells e) :
    Fits work (fold f e) := by
  have hmoves : work.sized = true → work.moves = true := by
    cases work <;> simp [Work.sized, Work.moves]
  have hmore : ∀ s, work.Shows s → ∀ x ∈ f.emitted ++ [s], work.Shows x := by
    intro s hs x hx
    rcases List.mem_append.1 hx with hx | hx
    · exact h.1 x hx
    · exact List.mem_singleton.1 hx ▸ hs
  cases e with
  | size size =>
    have hsized : work.sized = true := he
    exact ⟨hmore _ ⟨hmoves hsized, by simp [hsized]⟩, by simp [hsized]⟩
  | progress done =>
    refine ⟨hmore _ ⟨he, fun hno => ?_⟩, h.2⟩
    change f.total.toInt64 = 0
    rw [h.2 hno]
    rfl
  | done hash data => exact ⟨hmore _ he, h.2⟩
  | failed reason => exact ⟨hmore _ trivial, h.2⟩

/-- **A transfer's signals and its getters.** In every run, what `get_done`,
`get_total` and `get_hash` answer is what the signals emitted say: the figures
of the last `progress`, and the hash of `completed`, empty before. A transfer
that is running has emitted no final signal. Only an add and an export ever
report a total and a read reports no progress at all; what completes is the
blob asked for, with contents only if it was read. -/
theorem figures_signalled {ticking running : Bool} {work : Work} {as : List (Watched.Act TransferTask.Act)}
    {w : WatchedTransfer} (hrun : Machine.run step (spawn ticking work running) as = some w) :
    w.object.own.emitted.foldl TransferSignal.figures (0, 0, "") =
        (w.object.own.done.toInt64, w.object.own.total.toInt64, w.object.own.hash) ∧
      (w.object.channel.isSome = true → ∀ s ∈ w.object.own.emitted, s.final = false) ∧
      ∀ s ∈ w.object.own.emitted, work.Shows s := by
  have htask : TransferTask.Honest w.task ∧ w.task.work = work :=
    Watched.task_run (I := fun t : TransferTask => t.Honest ∧ t.work = work) hrun
      (fun _ _ _ h hs => ⟨TransferTask.honest_step h.1 hs, (TransferTask.work_step hs).trans h.2⟩) (fun _ h => h)
      ⟨TransferTask.spawn_honest work running, by cases running <;> rfl⟩
  obtain ⟨seen, hown, hseen⟩ := Watched.own_eq fold hrun (fun _ _ _ hs => (TransferTask.step_speaks hs).grow)
    (fun _ => rfl) handle_own IrohTransfer.closes
  have htells : ∀ e ∈ seen, work.Tells e := fun e he => htask.2 ▸ htask.1.sound e (hseen.subset he)
  refine ⟨?_, ?_, ?_⟩
  · rw [hown]
    exact List.foldlRecOn seen fold (motive := Agrees) rfl fun f h e _ => agrees_fold h e
  · refine Watched.open_run (I := fun f : TransferFields => ∀ s ∈ f.emitted, s.final = false) hrun
      (fun f e he h s hs => ?_) handle_own IrohTransfer.closes (fun _ => by simp [spawn, Watched.wrap, Object.wrap])
    have hlast : (fold f e).emitted.map TransferSignal.final = f.emitted.map TransferSignal.final ++ [e.final] :=
      fold_emitted [e] f
    have hmem := hlast ▸ List.mem_map_of_mem (f := TransferSignal.final) hs
    rcases List.mem_append.1 hmem with hmem | hmem
    · obtain ⟨s', hs', heq⟩ := List.mem_map.1 hmem
      exact heq ▸ h s' hs'
    · exact (List.mem_singleton.1 hmem).trans he
  · rw [hown]
    exact (List.foldlRecOn seen fold (motive := Fits work) ⟨by simp, fun _ => rfl⟩
      fun f h e he => fits_fold h (htells e he)).1

/-- An add of five bytes, told after two. -/
theorem figures_signalled_add : ∃ w, Machine.run step (spawn true (.add none) true)
    [.task (.opened (.ok ())), .task (.item (some (.size 5))), .task (.item (some (.copyProgress 2))), .drain] = some w ∧
    w.object.own.emitted = [.progress 0 5, .progress 2 5] ∧
    (w.object.own.done.toInt64, w.object.own.total.toInt64, w.object.own.hash) = (2, 5, "") := by
  have hrun : ((Machine.run step (spawn true (.add none) true)
      [.task (.opened (.ok ())), .task (.item (some (.size 5))), .task (.item (some (.copyProgress 2))), .drain]).map
      fun w => w.object.own.emitted) = some [.progress 0 5, .progress 2 5] := by
    decide +kernel
  obtain ⟨w, hw, he⟩ := Option.map_eq_some_iff.1 hrun
  refine ⟨w, hw, he, (figures_signalled hw).1.symm.trans ?_⟩
  rw [he]
  rfl

end WatchedTransfer
end Gdiroh.Endpoint
