/-
Whom documents are written as (`docs.rs`). The default author is the engine's,
and `set_default_author` changes it there; a document's task asks for it once,
while it opens, and writes as that author from then on.

`writes_as_chosen_iff`: when the last change of author has been answered, a
write is made as the author it chose if and only if that author was the
default when the document's task asked. An open document is not told of a
change (`writes_as_before`).

The engine keeps a change that went through and makes one only of an author it
has; whether a request goes through is otherwise up to the run.
-/
import Gdiroh.Endpoint.Actors
import Gdiroh.Lib.Logs
import Gdiroh.Lib.Machine

namespace Gdiroh.Endpoint

/-- A default author, and whether the request that chose it was answered. -/
structure Choice where
  author : String
  answered : Bool := false
deriving DecidableEq

/-- A `set_default_author`, as its query goes. -/
inductive AuthorRequest where
  | asked (author : String)
  /-- The engine has made the change. -/
  | made (choice : Nat)
  | refused (reason : String)
  | answered (reply : Reply)

/-- An open document: its task, and how many choices had been made when the
task asked for the author. -/
structure OpenDocument where
  task : DocumentTask
  asked : Option Nat := none

/-- A write made by a document, and whom it is attributed to. -/
structure Write where
  document : Nat
  author : String
deriving DecidableEq

/-- The document engine on one endpoint and what works with it. -/
structure Engine where
  authors : List String
  /-- What `author_default` answers. -/
  default : String
  /-- Every default author so far, oldest first. -/
  choices : List Choice
  requests : List AuthorRequest := []
  documents : List OpenDocument := []
  writes : List Write := []

namespace Engine

inductive Act where
  /-- `create_author` goes through. -/
  | createAuthor (author : String)
  /-- `set_default_author` is asked for. -/
  | setDefaultAuthor (author : String)
  /-- The engine takes the request. -/
  | choose (request : Nat) (outcome : Except String Unit)
  /-- The reply is sent. -/
  | reply (request : Nat)
  /-- A document is created, opened or joined. -/
  | openDocument (source : Source) (running : Bool)
  /-- A step of a document's task, or of the main thread on its queue. -/
  | document (document : Nat) (act : DocumentTask.Act)

/-- An engine as it comes up, with the authors it has kept and the one it
writes as, which nobody has asked for. -/
def start (authors : List String) (author : String) : Engine :=
  { authors, default := author, choices := [{ author }] }

def setRequest (g : Engine) (q : Nat) (request : AuthorRequest) : Engine :=
  { g with requests := g.requests.set q request }

def setDocument (g : Engine) (i : Nat) (d : OpenDocument) : Engine := { g with documents := g.documents.set i d }

/-- The command is a write, and it goes through. -/
def isWrite : DocumentTask.Act → List DocumentCommand → Bool
  | .command .done, .set .. :: _ => true
  | .command .done, .delete _ :: _ => true
  | _, _ => false

/-- The engine answers `author_default` with the default author, if at all. -/
def answers (g : Engine) : DocumentTask.Act → Bool
  | .author (.ok author) => author = g.default
  | _ => true

/-- What the task has asked for. -/
def asks (g : Engine) (asked : Option Nat) : DocumentTask.Act → Option Nat
  | .author (.ok _) => some (g.choices.length - 1)
  | _ => asked

/-- A document's task goes on. -/
def document (g : Engine) (i : Nat) (d : OpenDocument) (a : DocumentTask.Act) : Option Engine :=
  if g.answers a then
    (d.task.step a).map fun task =>
      { g.setDocument i { task, asked := g.asks d.asked a } with
        writes := g.writes ++
          if d.task.phase = .looping ∧ isWrite a d.task.commands then [⟨i, d.task.author⟩] else [] }
  else none

def step (g : Engine) : Act → Option Engine
  | .createAuthor author => some { g with authors := g.authors ++ [author] }
  | .setDefaultAuthor author => some { g with requests := g.requests ++ [.asked author] }
  | .choose q outcome =>
    match g.requests[q]? with
    | some (.asked author) =>
      match outcome with
      | .error reason => some (g.setRequest q (.refused reason))
      | .ok _ =>
        if author ∈ g.authors then
          some { g.setRequest q (.made g.choices.length) with default := author, choices := g.choices ++ [{ author }] }
        else none
    | _ => none
  | .reply q =>
    match g.requests[q]? with
    | some (.made k) =>
      some { g.setRequest q (.answered .done) with
        choices := g.choices.modify k fun choice => { choice with answered := true } }
    | some (.refused reason) => some (g.setRequest q (.answered (.failed reason)))
    | _ => none
  | .openDocument source running =>
    some { g with documents := g.documents ++ [{ task := .spawn source running }] }
  | .document i a =>
    match g.documents[i]? with
    | none => none
    | some d => g.document i d a

end Engine

namespace DocumentTask

/-- The task has its author. -/
def named (t : DocumentTask) : Bool :=
  match t.phase with
  | .subscribing | .store | .looping => true
  | _ => false

theorem step_author {t t' : DocumentTask} {author : String} (hs : t.step (.author (.ok author)) = some t') :
    t'.author = author := by
  simp only [step] at hs
  split at hs
  · obtain rfl := Option.some.inj hs
    rfl
  · simp at hs

/-- Without an answer about its author, the task keeps the one it has. -/
theorem step_keeps_author {t t' : DocumentTask} {a : Act} (ha : ∀ author, a ≠ .author (.ok author))
    (hs : t.step a = some t') : t'.author = t.author ∧ (t'.named = true → t.named = true) := by
  cases step_cases hs with
  | failed hphase reason => exact ⟨rfl, by simp [named, fail]⟩
  | engine hphase => exact ⟨rfl, by simp [named]⟩
  | document hphase id => exact ⟨rfl, by simp [named]⟩
  | author hphase author => exact absurd rfl (ha author)
  | opened hphase => exact ⟨rfl, by simp [named, hphase]⟩
  | store hphase => exact ⟨rfl, by simp [named, hphase]⟩
  | order command => exact ⟨rfl, fun hn => hn⟩
  | drop => exact ⟨rfl, fun hn => hn⟩
  | left hphase => exact ⟨rfl, by simp [named]⟩
  | done hphase hcommands happly => exact ⟨rfl, fun hn => hn⟩
  | answered e hphase hcommands happly => exact ⟨rfl, fun hn => hn⟩
  | closed hphase reason => exact ⟨rfl, by simp [named, close]⟩
  | pending hphase => exact ⟨rfl, fun hn => hn⟩
  | reported hphase he => exact ⟨rfl, fun hn => hn⟩
  | unheard hphase he => exact ⟨rfl, by simp [named]⟩
  | finished hphase => exact ⟨rfl, by simp [named]⟩
  | abandoned hphase => exact ⟨rfl, by simp [named]⟩

end DocumentTask

namespace Engine

/-- The default author after so many changes. -/
def defaultAt (g : Engine) (n : Nat) : Option String := (g.choices.map (·.author))[n]?

/-- What the task has been told is what the default was when it asked, and it
has asked if it has an author. -/
def Told (g : Engine) (d : OpenDocument) : Prop :=
  (∀ n, d.asked = some n → g.defaultAt n = some d.task.author) ∧ (d.task.named = true → d.asked ≠ none)

/-- Every document was told, and the last choice is the default. -/
structure Kept (g : Engine) : Prop where
  current : g.defaultAt (g.choices.length - 1) = some g.default
  told : ∀ d ∈ g.documents, g.Told d

theorem kept_start (authors : List String) (author : String) : Kept (start authors author) where
  current := rfl
  told := by simp [start]

/-- What was the default at some time is so for good. -/
theorem Told.grow {g g' : Engine} {d : OpenDocument} (h : g.Told d)
    (hchoices : g.choices.map (·.author) <+: g'.choices.map (·.author)) : g'.Told d :=
  ⟨fun n hn => Logs.getElem?_grown hchoices (h.1 n hn), h.2⟩

/-- A step that neither chooses nor touches a document. -/
theorem Kept.same {g g' : Engine} (h : Kept g) (hdocuments : g'.documents = g.documents)
    (hchoices : g'.choices.map (·.author) = g.choices.map (·.author)) (hdefault : g'.default = g.default) : Kept g' where
  current := by
    have hlength : g'.choices.length = g.choices.length := by simpa using congrArg List.length hchoices
    rw [defaultAt, hchoices, hlength, hdefault]
    exact h.current
  told := by
    intro d hd
    refine (h.told d (hdocuments ▸ hd)).grow ?_
    rw [hchoices]

/-- The task's own step: either it is told the default, or it keeps what it
has been told. -/
theorem Kept.told_step {g : Engine} (h : Kept g) {d : OpenDocument} (hd : d ∈ g.documents) {a : DocumentTask.Act}
    {task : DocumentTask} (hanswers : g.answers a = true) (htask : d.task.step a = some task) :
    g.Told { task, asked := g.asks d.asked a } := by
  by_cases ha : ∃ author, a = .author (.ok author)
  · obtain ⟨author, rfl⟩ := ha
    have hdefault : author = g.default := by simpa [answers] using hanswers
    refine ⟨fun n hn => ?_, fun _ => by simp [asks]⟩
    rw [← Option.some.inj hn, DocumentTask.step_author htask, hdefault]
    exact h.current
  · have hno : ∀ author, a ≠ .author (.ok author) := fun author he => ha ⟨author, he⟩
    obtain ⟨hauthor, hnamed⟩ := DocumentTask.step_keeps_author hno htask
    have hasks : g.asks d.asked a = d.asked := by
      unfold asks
      split
      next author => exact absurd rfl (hno author)
      · rfl
    rw [hasks, Told, hauthor]
    exact ⟨(h.told d hd).1, fun hn => (h.told d hd).2 (hnamed hn)⟩

theorem kept_document {g g' : Engine} (h : Kept g) {i : Nat} {d : OpenDocument} {a : DocumentTask.Act}
    (hd : g.documents[i]? = some d) (hs : g.document i d a = some g') : Kept g' := by
  unfold document at hs
  split at hs
  next hanswers =>
    obtain ⟨task, htask, rfl⟩ := Option.map_eq_some_iff.1 hs
    refine ⟨h.current, fun e he => ?_⟩
    rcases List.mem_or_eq_of_mem_set he with he | rfl
    · exact h.told e he
    · exact h.told_step (List.mem_of_getElem? hd) hanswers htask
  · simp at hs

theorem kept_step {g g' : Engine} {a : Act} (h : Kept g) (hs : g.step a = some g') : Kept g' := by
  cases a with
  | createAuthor author =>
    obtain rfl := Option.some.inj hs
    exact h.same rfl rfl rfl
  | setDefaultAuthor author =>
    obtain rfl := Option.some.inj hs
    exact h.same rfl rfl rfl
  | choose q outcome =>
    simp only [step] at hs
    split at hs
    next author hq =>
      cases outcome with
      | error reason =>
        obtain rfl := Option.some.inj hs
        exact h.same rfl rfl rfl
      | ok _ =>
        dsimp only at hs
        split at hs
        · obtain rfl := Option.some.inj hs
          exact ⟨by simp [defaultAt], fun d hd => (h.told d hd).grow (by simp)⟩
        · simp at hs
    · simp at hs
  | reply q =>
    simp only [step] at hs
    split at hs
    next k hq =>
      obtain rfl := Option.some.inj hs
      refine h.same rfl ?_ rfl
      -- Being answered is not a change of author.
      refine List.ext_getElem? fun n => ?_
      simp only [List.getElem?_map, List.getElem?_modify]
      split
      · cases g.choices[n]? <;> rfl
      · simp
    · obtain rfl := Option.some.inj hs
      exact h.same rfl rfl rfl
    · simp at hs
  | openDocument source running =>
    obtain rfl := Option.some.inj hs
    refine ⟨h.current, fun d hd => ?_⟩
    rcases List.mem_append.1 hd with hd | hd
    · exact h.told d hd
    · rw [List.mem_singleton.1 hd]
      have hfresh : (DocumentTask.spawn source running).named = false := by
        cases running <;> rfl
      exact ⟨by simp, by simp [hfresh]⟩
  | document i a =>
    simp only [step] at hs
    split at hs
    · simp at hs
    next d hd => exact kept_document h hd hs

theorem kept_run {authors : List String} {author : String} {as : List Act} {g : Engine}
    (hrun : Machine.run step (start authors author) as = some g) : Kept g :=
  Machine.run_invariant (I := Kept) (fun _ _ _ h hs => kept_step h hs) hrun (kept_start authors author)

/-! ## Writes -/

/-- A write of the step is made as the author last chosen, if that choice has
been answered. -/
def MadeAsChosen (g g' : Engine) : Prop :=
  ∀ c, g.choices.getLast? = some c → c.answered = true → ∀ w, g'.writes = g.writes ++ [w] → w.author = c.author

/-- A write that goes through is made by a task that has its author, and as
that author. -/
theorem write_step {g g' : Engine} {i : Nat} {d : OpenDocument} (hd : g.documents[i]? = some d)
    (hwrite : isWrite (.command .done) d.task.commands = true)
    (hs : g.step (.document i (.command .done)) = some g') :
    d.task.phase = .looping ∧ g'.writes = g.writes ++ [⟨i, d.task.author⟩] := by
  simp only [step, hd, document, answers, if_true] at hs
  obtain ⟨task, htask, rfl⟩ := Option.map_eq_some_iff.1 hs
  have hphase : d.task.phase = .looping := by
    simp only [DocumentTask.step] at htask
    split at htask
    next hphase => exact hphase
    · simp at htask
  exact ⟨hphase, by simp [hphase, hwrite]⟩

/-- **A write is made as the author chosen, if its document had asked under
it.** The task keeps the author it was told while opening. -/
theorem writes_as_chosen_iff {authors : List String} {author : String} {as : List Act} {g g' : Engine} {i : Nat}
    {d : OpenDocument} (hrun : Machine.run step (start authors author) as = some g) (hd : g.documents[i]? = some d)
    (hwrite : isWrite (.command .done) d.task.commands = true)
    (hs : g.step (.document i (.command .done)) = some g') :
    MadeAsChosen g g' ↔
      ∀ c, g.choices.getLast? = some c → c.answered = true → d.asked.bind g.defaultAt = some c.author := by
  have hkept := kept_run hrun
  have hmem := List.mem_of_getElem? hd
  obtain ⟨hphase, hwrites⟩ := write_step hd hwrite hs
  -- What the task was told is what the default was when it asked.
  have hasked : d.asked.bind g.defaultAt = some d.task.author := by
    obtain ⟨htold, hnamed⟩ := hkept.told d hmem
    obtain ⟨n, hn⟩ := Option.ne_none_iff_exists'.1 (hnamed (by simp [DocumentTask.named, hphase]))
    rw [hn, Option.bind_some]
    exact htold n hn
  constructor
  · intro hmade c hc hanswered
    rw [hasked, ← hmade c hc hanswered _ hwrites]
  · intro hchosen c hc hanswered w hw
    have hw : w = ⟨i, d.task.author⟩ := by simpa using hw.symm.trans hwrites
    have hauthor := hasked.symm.trans (hchosen c hc hanswered)
    rw [hw]
    exact Option.some.inj hauthor

/-! ## Before the change and after it -/

/-- A document opens, and is told whom it writes as. -/
def opened (author : String) : List Act :=
  [.openDocument .create true, .document 0 (.engine (.ok ())), .document 0 (.document (.ok (some "doc"))),
    .document 0 (.author (.ok author)), .document 0 (.subscribed (.ok ())), .document 0 (.store (.ok ()))]

/-- Another author is made and chosen, and the caller is told so. -/
def chosen : List Act := [.createAuthor "b", .setDefaultAuthor "b", .choose 0 (.ok ()), .reply 0]

/-- A key is to be set. -/
def ordered : List Act := [.document 0 (.order (.set [1] [2]))]

/-- What is written next, the last choice, and what the document has asked
for. -/
def written (g : Engine) : Option (List Write × Option Choice × List (Option String × Bool)) :=
  (g.step (.document 0 (.command .done))).map fun g' =>
    (g'.writes, g.choices.getLast?,
      g.documents.map fun d => (d.asked.bind g.defaultAt, isWrite (.command .done) d.task.commands))

theorem written_eq_some {as : List Act} {w : Write} {c : Choice} {asked : Option String}
    (h : (Machine.run step (start ["a"] "a") as).bind written = some ([w], some c, [(asked, true)])) :
    ∃ g g' d, Machine.run step (start ["a"] "a") as = some g ∧ g.step (.document 0 (.command .done)) = some g' ∧
      g'.writes = [w] ∧ g.choices.getLast? = some c ∧ g.documents[0]? = some d ∧
      d.asked.bind g.defaultAt = asked ∧ isWrite (.command .done) d.task.commands = true := by
  obtain ⟨g, hg, hwritten⟩ := Option.bind_eq_some_iff.1 h
  obtain ⟨g', hs, he⟩ := Option.map_eq_some_iff.1 hwritten
  simp only [Prod.mk.injEq] at he
  obtain ⟨hwrites, hlast, hdocuments⟩ := he
  obtain ⟨d, hd, he⟩ := List.map_eq_singleton_iff.1 hdocuments
  obtain ⟨hasked, hwrite⟩ := Prod.mk.inj he
  exact ⟨g, g', d, hg, hs, hwrites, hlast, by simp [hd], hasked, hwrite⟩

theorem writes_as_chosen_iff_opened_after : ∃ g g',
    Machine.run step (start ["a"] "a") (chosen ++ opened "b" ++ ordered) = some g ∧
    g.step (.document 0 (.command .done)) = some g' ∧ g'.writes = [⟨0, "b"⟩] ∧ MadeAsChosen g g' := by
  have hrun : ((Machine.run step (start ["a"] "a") (chosen ++ opened "b" ++ ordered)).bind written) =
      some ([⟨0, "b"⟩], some ⟨"b", true⟩, [(some "b", true)]) := by
    decide +kernel
  obtain ⟨g, g', d, hg, hs, hwrites, hlast, hd, hasked, hwrite⟩ := written_eq_some hrun
  refine ⟨g, g', hg, hs, hwrites, (writes_as_chosen_iff hg hd hwrite hs).2 ?_⟩
  intro c hc _
  obtain rfl := Option.some.inj (hlast.symm.trans hc)
  exact hasked

/-- **An open document keeps its author.** It was opened before the change,
and is written to after the caller was told that the change is made. -/
theorem writes_as_before : ¬ ∀ authors author as g g' i d, Machine.run step (start authors author) as = some g →
    g.documents[i]? = some d → isWrite (.command .done) d.task.commands = true →
    g.step (.document i (.command .done)) = some g' → MadeAsChosen g g' := by
  intro hall
  have hrun : ((Machine.run step (start ["a"] "a") (opened "a" ++ chosen ++ ordered)).bind written) =
      some ([⟨0, "a"⟩], some ⟨"b", true⟩, [(some "a", true)]) := by
    decide +kernel
  obtain ⟨g, g', d, hg, hs, hwrites, hlast, hd, -, hwrite⟩ := written_eq_some hrun
  have hmade := hall _ _ _ g g' 0 d hg hd hwrite hs
  have hbefore : g.writes = [] := by
    have h : [] ++ [⟨0, "a"⟩] = g.writes ++ [_] :=
      hwrites.symm.trans (write_step hd hwrite hs).2
    exact (List.append_inj_left' h rfl).symm
  have hauthor := hmade _ hlast rfl ⟨0, "a"⟩ (by rw [hwrites, hbefore]; rfl)
  exact absurd hauthor (by decide)

end Engine
end Gdiroh.Endpoint
