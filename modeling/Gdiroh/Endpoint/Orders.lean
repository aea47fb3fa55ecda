/-
What becomes of the commands script gives a document (`document.rs`) and a
topic (`topic.rs`). They wait in a queue of their own (`docs.rs`, `gossip.rs`)
until the task takes them, one at a time, in between the live events it
reports.

`replies_in_order`: a document answers its questions in the order they were
asked, each one once and with an answer of its own kind, about its own key.
`closing_finishes`: what was still waiting when the handle was dropped is
carried out, unless a live event comes first. Then the task finds that nobody
listens, and the rest is never done.
-/
import Gdiroh.Endpoint.Views
import Gdiroh.Lib.Served

namespace Gdiroh.Endpoint

open Polled

/-! ## Questions and answers -/

/-- The command is answered by an event of its own. -/
def DocumentCommand.asks : DocumentCommand → Bool
  | .read _ | .listKeys _ | .status | .share _ => true
  | .set .. | .delete _ | .join _ | .leave => false

/-- The event answers a command. -/
def DocumentEvent.replies : DocumentEvent → Bool
  | .value .. | .keys .. | .status .. | .shared _ => true
  | _ => false

/-- The event is an answer to the command. -/
def Answers : DocumentCommand → DocumentEvent → Prop
  | .read key, .value key' _ => key' = key
  | .listKeys start, .keys start' _ => start' = start
  | .status, .status .. => True
  | .share _, .shared _ => True
  | _, _ => False

namespace DocumentTask

/-- The command put by an action. -/
def orders : Act → List DocumentCommand
  | .order command => [command]
  | _ => []

theorem apply_silent {command : DocumentCommand} {answer : DocumentAnswer}
    (h : apply command answer = some (.ok none)) : command.asks = false := by
  unfold apply at h
  split at h <;> simp only [Option.some.injEq, Except.ok.injEq, reduceCtorEq] at h
  all_goals rfl

theorem apply_replies {command : DocumentCommand} {answer : DocumentAnswer} {e : DocumentEvent}
    (h : apply command answer = some (.ok (some e))) : command.asks = true ∧ e.replies = true ∧ Answers command e := by
  unfold apply at h
  split at h <;> simp only [Option.some.injEq, Except.ok.injEq, reduceCtorEq] at h
  all_goals
    rw [← h]
    exact ⟨rfl, rfl, by simp [Answers]⟩

theorem report_replies {event : LiveEvent} {e : DocumentEvent} (h : report event = some e) : e.replies = false := by
  cases event with
  | pendingContentReady => simp [report] at h
  | _ =>
    rw [← Option.some.inj h]
    rfl

/-- An action that leaves the queue alone puts nothing. -/
theorem orders_eq_nil {t t' : DocumentTask} {a : Act} (hs : t.step a = some t') (h : t'.commands = t.commands) :
    orders a = [] := by
  cases a with
  | order command =>
    simp only [step] at hs
    split at hs
    · rw [← Option.some.inj hs] at h
      simp at h
    · simp at hs
  | _ => rfl

/-- The questions served so far have been answered, one by one. -/
def Answered (served : List DocumentCommand) (t : DocumentTask) : Prop :=
  List.Forall₂ Answers (served.filter DocumentCommand.asks) (t.sent.filter DocumentEvent.replies)

theorem Answered.emit {served : List DocumentCommand} {t : DocumentTask} (h : Answered served t) {e : DocumentEvent}
    (he : e.replies = false) : Answered served (t.emit e) := by
  simpa [Answered, DocumentTask.emit, List.filter_append, he] using h

theorem step_serves {served : List DocumentCommand} {t t' : DocumentTask} {a : Act} (h : Answered served t)
    (hs : t.step a = some t') : Served.Serves DocumentTask.commands Answered served (orders a) t t' := by
  have hsame : t'.commands = t.commands → Answered served t' →
      Served.Serves DocumentTask.commands Answered served (orders a) t t' := by
    intro hcommands hkept
    exact .put (by rw [hcommands, orders_eq_nil hs hcommands, List.append_nil]) hkept
  cases step_cases hs with
  | failed hphase reason => exact hsame rfl (h.emit rfl)
  | engine | document | author | store | drop | left | finished | abandoned => exact hsame rfl h
  | opened hphase => exact hsame rfl (h.emit rfl)
  | order command => exact .put rfl h
  | @done command rest answer hphase hcommands happly =>
    refine .serve command rfl hcommands ?_
    simpa [Answered, List.filter_append, apply_silent happly] using h
  | @answered command rest answer e hphase hcommands happly =>
    obtain ⟨hasks, hreplies, hanswers⟩ := apply_replies happly
    refine .serve command rfl hcommands ?_
    simp only [Answered, emit, List.filter_append, List.filter_singleton, hasks, hreplies]
    exact List.rel_append h (.cons hanswers .nil)
  | closed hphase reason => exact hsame rfl (h.emit rfl)
  | pending hphase => exact hsame rfl h
  | reported hphase he => exact hsame rfl (h.emit (report_replies he))
  | unheard hphase he => exact hsame rfl (h.emit (report_replies he))

end DocumentTask

namespace WatchedDocument

/-- The questions script has asked, in order. -/
def requests (as : List (Watched.Act DocumentTask.Act)) : List DocumentCommand :=
  (as.flatMap (Served.behind DocumentTask.orders)).filter DocumentCommand.asks

/-- The answers among a document's signals. -/
def replies (w : WatchedDocument) : List DocumentEvent := w.object.own.emitted.filter DocumentEvent.replies

/-- **Answers come in the order of the questions.** In every run, the answers a
document has emitted are answers to the first so many questions asked of it, in
that order: `value` and `keys` name the key and the prefix asked for. Once no
command waits and a frame has passed, every question has its answer. -/
theorem replies_in_order {ticking running : Bool} {source : Source} {as : List (Watched.Act DocumentTask.Act)}
    {w : WatchedDocument} (hrun : Machine.run step (spawn ticking source running) as = some w) :
    List.Forall₂ Answers ((requests as).take w.replies.length) w.replies ∧
      ∀ p ∈ w.object.channel, w.task.commands = [] → p.queue = [] → List.Forall₂ Answers (requests as) w.replies := by
  obtain ⟨served, hputs, hserved⟩ := Served.run_served (fun w : WatchedDocument => w.task.commands)
    (Served.behind DocumentTask.orders) (fun served w => DocumentTask.Answered served w.task) hrun
    (fun served w a w' h hs => Served.Serves.behind (fun _ _ ht => DocumentTask.step_serves h ht) ⟨rfl, id⟩ h hs)
    (by cases running <;> rfl) (by cases running <;> exact .nil)
  obtain ⟨seen, hown, ⟨rest, hseen⟩, hrest⟩ := reads hrun
  have hreplies : w.replies = seen.filter DocumentEvent.replies := by
    rw [replies, hown, foldl_emitted, List.nil_append]
  have hrequests : requests as = served.filter DocumentCommand.asks ++ w.task.commands.filter DocumentCommand.asks := by
    rw [requests, hputs, List.filter_append]
  rw [DocumentTask.Answered, ← hseen, List.filter_append, ← hreplies] at hserved
  refine ⟨?_, fun p hp hcommands hqueue => ?_⟩
  · have hlength := hserved.length_eq
    rw [List.length_append] at hlength
    rw [hrequests, List.take_append_of_le_length (by omega)]
    exact List.forall₂_take_append _ _ _ hserved
  · have hall : seen = w.task.sent := by simpa [hqueue] using hrest p hp
    have hnil : rest = [] := by simpa [hall] using hseen
    rw [hrequests, hcommands]
    simpa [hnil] using hserved

/-- Two questions, the second still waiting. -/
theorem replies_in_order_waiting : ∃ w, Machine.run step (spawn true .create true)
    [.task (.order (.read [1])), .task (.order (.listKeys [])), .task (.engine (.ok ())),
      .task (.document (.ok (some "id"))), .task (.author (.ok "author")), .task (.subscribed (.ok ())),
      .task (.store (.ok ())), .task (.command (.value none)), .drain] = some w ∧
    w.replies.length = 1 ∧ List.Forall₂ Answers [.read [1]] w.replies := by
  have hrun : ((Machine.run step (spawn true .create true)
      [.task (.order (.read [1])), .task (.order (.listKeys [])), .task (.engine (.ok ())),
        .task (.document (.ok (some "id"))), .task (.author (.ok "author")), .task (.subscribed (.ok ())),
        .task (.store (.ok ())), .task (.command (.value none)), .drain]).map fun w => w.replies.length) = some 1 := by
    decide +kernel
  obtain ⟨w, hw, hlength⟩ := Option.map_eq_some_iff.1 hrun
  have hanswered := (replies_in_order hw).1
  rw [hlength] at hanswered
  exact ⟨w, hw, hlength, hanswered⟩

end WatchedDocument

/-! ## What is left undone -/

namespace DocumentTask

/-- What comes is a failure, the end of the stream, or the end of the runtime. -/
def Act.fails : Act → Bool
  | .engine (.error _) | .document (.error _) | .document (.ok none) | .author (.error _) | .subscribed (.error _)
  | .store (.error _) | .command (.failed _) | .update none | .update (some (.error _)) | .abandon => true
  | _ => false

/-- A live event that is passed on comes while the handle is there, or when
nothing is left to do. -/
def Heard (t : DocumentTask) : Act → Prop
  | .update (some (.ok event)) => (report event).isSome = true → t.held = true ∨ t.commands = []
  | _ => True

/-- A task that is out of its loop has done all it was told, and is not told
any more. -/
def Finished (t : DocumentTask) : Prop := t.gone → t.commands = [] ∧ t.held = false

theorem Finished.going {t : DocumentTask} (h : ¬ t.gone) : Finished t := fun hg => absurd hg h

theorem apply_fails {command : DocumentCommand} {answer : DocumentAnswer} {reason : String}
    (h : apply command answer = some (.error reason)) : (Act.command answer).fails = true := by
  unfold apply at h
  split at h <;> simp only [Option.some.injEq, Except.error.injEq, reduceCtorEq] at h
  rfl

theorem openDoc_fails {source : Source} {outcome : Except String (Option String)} {reason : String}
    (h : openDoc source outcome = some (.error reason)) : (Act.document outcome).fails = true := by
  unfold openDoc at h
  split at h <;> simp at h
  all_goals rfl

theorem finished_step {t t' : DocumentTask} {a : Act} (h : Finished t) (ha : a.fails = false)
    (hs : t.step a = some t') : Finished t' ↔ t.Heard a := by
  cases a with
  | engine outcome | author outcome | subscribed outcome | store outcome =>
    simp only [step] at hs
    split at hs
    next hphase =>
      cases outcome with
      | ok _ =>
        obtain rfl := Option.some.inj hs
        exact iff_of_true (.going (by simp [gone])) trivial
      | error reason => simp [Act.fails] at ha
    · simp at hs
  | document outcome =>
    simp only [step] at hs
    split at hs
    next hphase =>
      obtain ⟨result, hopen, rfl⟩ := Option.map_eq_some_iff.1 hs
      cases result with
      | ok id => exact iff_of_true (.going (by simp [gone])) trivial
      | error reason => simp [openDoc_fails hopen] at ha
    · simp at hs
  | order command =>
    simp only [step] at hs
    split at hs
    next hheld =>
      obtain rfl := Option.some.inj hs
      -- A task that is gone cannot be told: its handle is gone too.
      exact iff_of_true (.going fun hg => by simp [(h hg).2] at hheld) trivial
    · simp at hs
  | drop =>
    obtain rfl := Option.some.inj hs
    exact iff_of_true (fun hg => ⟨(h hg).1, rfl⟩) trivial
  | command answer =>
    simp only [step] at hs
    split at hs
    next hphase =>
      split at hs
      next hcommands =>
        split at hs
        · simp at hs
        next hheld =>
          obtain rfl := Option.some.inj hs
          exact iff_of_true (fun _ => ⟨hcommands, by simpa using hheld⟩) trivial
      next command rest hcommands =>
        obtain ⟨result, happly, rfl⟩ := Option.map_eq_some_iff.1 hs
        rcases result with reason | (_ | e)
        · simp [apply_fails happly] at ha
        · exact iff_of_true (.going (by simp [gone, hphase])) trivial
        · exact iff_of_true (.going (by simp [gone, emit, hphase])) trivial
    · simp at hs
  | update item =>
    simp only [step] at hs
    split at hs
    next hphase =>
      split at hs
      next event =>
        split at hs
        next hnone =>
          obtain rfl := Option.some.inj hs
          exact iff_of_true h (by simp [Heard, hnone])
        next e he =>
          simp only [Heard, he, Option.isSome_some, true_implies]
          split at hs
          next hheld =>
            obtain rfl := Option.some.inj hs
            exact iff_of_true (.going (by simp [gone, emit, hphase])) (.inl hheld)
          next hheld =>
            obtain rfl := Option.some.inj hs
            constructor
            · exact fun hfinished => .inr (hfinished (.inl rfl)).1
            · rintro (hheld' | hcommands) _
              · exact absurd hheld' hheld
              · exact ⟨hcommands, by simpa [emit] using hheld⟩
      · simp [Act.fails] at ha
      · simp [Act.fails] at ha
    · simp at hs
  | closed =>
    simp only [step] at hs
    split at hs
    next hphase =>
      obtain rfl := Option.some.inj hs
      exact iff_of_true (fun _ => h (.inl hphase)) trivial
    · simp at hs
  | abandon => simp [Act.fails] at ha

end DocumentTask

namespace TopicTask

/-- An event comes while the handle is there, or when nothing is left to do. -/
def Heard (t : TopicTask) : Act → Prop
  | .event (some (.ok _)) => t.held = true ∨ t.commands = []
  | _ => True

/-- A task that has ended has done all it was told, and is not told any more. -/
def Finished (t : TopicTask) : Prop := t.phase = .ended → t.commands = [] ∧ t.held = false

theorem finished_step {t t' : TopicTask} {a : Act} (h : Finished t) (ha : a.fails = false)
    (hs : t.step a = some t') : Finished t' ↔ t.Heard a := by
  have hgoing : ∀ {t : TopicTask}, t.phase ≠ .ended → Finished t := fun hno hended => absurd hended hno
  cases step_cases hs with
  | subscribed hphase => exact iff_of_true (hgoing (by simp)) trivial
  | order command hheld => exact iff_of_true (hgoing fun hg => by simp [(h hg).2] at hheld) trivial
  | drop => exact iff_of_true (fun hg => ⟨(h hg).1, rfl⟩) trivial
  | left hphase hcommands hheld => exact iff_of_true (fun _ => ⟨hcommands, hheld⟩) trivial
  | done hphase hcommands => exact iff_of_true (hgoing (by simp [hphase])) trivial
  | @told event hphase hmore =>
    obtain ⟨e, he⟩ := t.report_eq event
    refine iff_of_true (hgoing (by simp [he, hphase])) (.inl ?_)
    cases event with
    | lagged => simp [Act.fails] at ha
    | _ => exact hmore
  | @finished event hphase hmore =>
    obtain ⟨e, he⟩ := t.report_eq event
    have hheld : t.held = false := by
      cases event with
      | lagged => simp [Act.fails] at ha
      | _ => exact hmore
    simp [Finished, Heard, he, hheld]
  | failed hphase ha' reason => simp [ha] at ha'
  | abandoned hphase => simp [Act.fails] at ha

end TopicTask

/-- **Closing finishes what was begun, or not.** As long as the engine and the
swarm do what they are asked: a document's task always leaves its loop with
every command carried out that it was given if and only if no live event is
passed on while the handle is gone and commands wait. The same goes for a topic
and the events of its swarm. -/
theorem closing_finishes :
    (∀ source as t, Machine.run DocumentTask.step (.spawn source true) as = some t →
      (∀ a ∈ as, DocumentTask.Act.fails a = false) →
      ((∀ bs u, bs <+: as → Machine.run DocumentTask.step (.spawn source true) bs = some u → u.Finished) ↔
        Machine.Along DocumentTask.step DocumentTask.Heard (.spawn source true) as)) ∧
    ∀ as t, Machine.run TopicTask.step (.subscribe true) as = some t →
      (∀ a ∈ as, TopicTask.Act.fails a = false) →
      ((∀ bs u, bs <+: as → Machine.run TopicTask.step (.subscribe true) bs = some u → u.Finished) ↔
        Machine.Along TopicTask.step TopicTask.Heard (.subscribe true) as) := by
  refine ⟨fun source as t hrun hfails => ?_, fun as t hrun hfails => ?_⟩
  · refine Machine.invariant_iff_along_of (fun _ _ _ => DocumentTask.finished_step) hrun hfails (.going ?_)
    simp [DocumentTask.gone, DocumentTask.spawn]
  · refine Machine.invariant_iff_along_of (fun _ _ _ => TopicTask.finished_step) hrun hfails fun hended => ?_
    simp [TopicTask.subscribe] at hended

/-- Two keys are set and the document is closed: the live event of the first
write is in time to prevent the second. -/
def setAndClose : List DocumentTask.Act :=
  [.engine (.ok ()), .document (.ok (some "id")), .author (.ok "author"), .subscribed (.ok ()), .store (.ok ()),
    .order (.set [1] [1]), .order (.set [2] [2]), .drop, .command .done,
    .update (some (.ok (.insertLocal [1] "author" "hash" 1)))]

theorem closing_finishes_setAndClose : ∃ t, Machine.run DocumentTask.step (.spawn .create true) setAndClose = some t ∧
    ¬ t.Finished ∧ ¬ Machine.Along DocumentTask.step DocumentTask.Heard (.spawn .create true) setAndClose := by
  have hrun : ((Machine.run DocumentTask.step (.spawn .create true) setAndClose).map fun t =>
      (t.phase, t.commands.length)) = some (.closing, 1) := by
    decide +kernel
  obtain ⟨t, ht, he⟩ := Option.map_eq_some_iff.1 hrun
  simp only [Prod.mk.injEq] at he
  have hleft : ¬ t.Finished := fun hfinished => by simp [(hfinished (.inl he.1)).1] at he
  refine ⟨t, ht, hleft, fun halong => hleft ?_⟩
  have hfails : ∀ a ∈ setAndClose, DocumentTask.Act.fails a = false := by
    simp [setAndClose, DocumentTask.Act.fails]
  exact (closing_finishes.1 .create setAndClose t ht hfails).2 halong setAndClose t (List.prefix_refl _) ht

end Gdiroh.Endpoint
