/-
The questions an endpoint puts to its stores (`endpoint.rs`, `blobs.rs` and
`docs.rs`). Each has a task, which opens the store, puts the question to it and
sends the answer back; a frame takes whatever has arrived. The endpoint keeps
no more of a question than its kind and what it is about.

Beside it runs a ledger of every question that was ever put. What the stores
return, and whether they open, is up to the run.
-/
import Gdiroh.Endpoint.Polling
import Gdiroh.Lib.Ledger

namespace Gdiroh.Endpoint

open Polled Dispatch Ledger

/-! ## The blob store's questions -/

/-- `BlobStatus`, with `Partial` as `incomplete`. -/
inductive BlobStatus where
  | notFound
  | incomplete (size : Option UInt64)
  | complete (size : UInt64)
deriving DecidableEq

inductive BlobQuery where
  | status (hash : String)
  | list
  | tag (hash name : String)
  | untag (name : String)
  | tags
deriving DecidableEq

/-- Every text of a listing that comes item by item; the first item that is an
error ends it. -/
def collect {α : Type} (text : α → String) (names : List String) : List (Except String α) → Except String (List String)
  | [] => .ok names
  | .ok item :: rest => collect text (names ++ [text item]) rest
  | .error reason :: _ => .error reason

namespace BlobQuery

/-- What the store returns for it. -/
@[reducible] def Result : BlobQuery → Type
  | .status _ => Except String BlobStatus
  | .list => Except String (List String)
  | .tag .. | .untag _ => Except String Unit
  | .tags => Except String (List (Except String Bytes))

def statusAnswer : Except String BlobStatus → Answer
  | .ok .notFound => .status false false 0
  | .ok (.incomplete size) => .status true false (size.getD 0)
  | .ok (.complete size) => .status true true size
  | .error reason => .failed reason

def namesAnswer : Except String (List String) → Answer
  | .ok names => .names names
  | .error reason => .failed reason

def doneAnswer : Except String Unit → Answer
  | .ok _ => .done
  | .error reason => .failed reason

/-- The body of `status`, `list`, `tag`, `untag` and `tags`. `lossy` is
`String::from_utf8_lossy`. -/
def work (lossy : Bytes → String) : (q : BlobQuery) → q.Result → Answer
  | .status _ => statusAnswer
  | .list => namesAnswer
  | .tag .. | .untag _ => doneAnswer
  | .tags => fun listed => namesAnswer (listed.bind (collect lossy []))

def kind : BlobQuery → Kind
  | .status _ => .status
  | .list => .blobs
  | .tag .. | .untag _ => .mutation
  | .tags => .tags

def about : BlobQuery → String
  | .status hash => hash
  | .list => "blob list"
  | .tag hash _ => "tagging " ++ hash
  | .untag name => "untagging " ++ name
  | .tags => "tag list"

/-- What a task finds: whether the store opened, and what it returned. -/
abbrev Outcome (q : BlobQuery) : Type := Except String q.Result

/-- `Depot::query`. -/
def query (lossy : Bytes → String) (q : BlobQuery) : q.Outcome → Answer
  | .ok result => q.work lossy result
  | .error reason => .failed reason

end BlobQuery

/-! ## The document store's questions -/

inductive DocQuery where
  | list
  | dropDoc (id : String)
  | authors
  | createAuthor
  | setDefaultAuthor (author : String)
deriving DecidableEq

namespace DocQuery

@[reducible] def Result : DocQuery → Type
  | .list | .authors => Except String (List (Except String String))
  | .createAuthor => Except String String
  | .dropDoc _ | .setDefaultAuthor _ => Except String Unit

def namesReply : Except String (List String) → Reply
  | .ok names => .names names
  | .error reason => .failed reason

def doneReply : Except String Unit → Reply
  | .ok _ => .done
  | .error reason => .failed reason

/-- The body of `list`, `drop_doc`, `authors`, `create_author` and
`set_default_author`. -/
def work : (q : DocQuery) → q.Result → Reply
  | .list | .authors => fun listed => namesReply (listed.bind (collect id []))
  | .createAuthor => fun author => namesReply (author.map fun author => [author])
  | .dropDoc _ | .setDefaultAuthor _ => doneReply

def kind : DocQuery → DocKind
  | .list => .documents
  | .authors => .authors
  | .createAuthor => .newAuthor
  | .dropDoc _ | .setDefaultAuthor _ => .mutation

def about : DocQuery → String
  | .list => "document list"
  | .dropDoc id => "dropping " ++ id
  | .authors => "author list"
  | .createAuthor => "creating an author"
  | .setDefaultAuthor author => "choosing author " ++ author

abbrev Outcome (q : DocQuery) : Type := Except String q.Result

/-- `Library::query`. -/
def query (q : DocQuery) : q.Outcome → Reply
  | .ok result => q.work result
  | .error reason => .failed reason

end DocQuery

namespace Listening.Request

/-- What a call asks of the blob store. -/
def blob : Request → Option BlobQuery
  | .blobStatus hash => some (.status hash)
  | .blobList => some .list
  | .tag hash name => some (.tag hash name)
  | .untag name => some (.untag name)
  | .tagList => some .tags
  | _ => none

/-- What a call asks of the document store. -/
def document : Request → Option DocQuery
  | .documentList => some .list
  | .dropDocument id => some (.dropDoc id)
  | .authorList => some .authors
  | .createAuthor => some .createAuthor
  | .setDefaultAuthor author => some (.setDefaultAuthor author)
  | _ => none

end Listening.Request

/-! ## Questions and their tasks -/

/-- An endpoint, with every question it ever put. -/
structure Inquiring where
  listened : Listened := {}
  blobs : List (Entry BlobQuery.Outcome) := []
  documents : List (Entry DocQuery.Outcome) := []

/-- The task of the `j`-th question sends what it makes of an outcome. -/
def replyAt {κ K ε : Type} [DecidableEq κ] {ρ : κ → Type} (query : (k : κ) → ρ k → ε) (l : List (Entry ρ))
    (questions : List (Question K ε)) (j : Nat) (k : κ) (outcome : ρ k) :
    Option (List (Entry ρ) × List (Question K ε)) :=
  l[j]?.bind fun x =>
    if x.what = k ∧ x.fate.isTaken = false then
      (changeAt questions (place l j) (·.move (.send (query k outcome)))).map (l.set j ⟨k, .answered outcome⟩, ·)
    else none

/-- The task of the `j`-th question goes: it ends after its answer, or is
dropped because the runtime was stopped. -/
def goAt {κ K ε : Type} {ρ : κ → Type} (l : List (Entry ρ)) (questions : List (Question K ε)) (j : Nat)
    (dropped : Bool) : Option (List (Entry ρ) × List (Question K ε)) :=
  l[j]?.bind fun x =>
    if x.fate.isTaken = false then
      (changeAt questions (place l j) (·.move (if dropped then .drop else .finish))).map
        (l.set j ⟨x.what, x.fate.go⟩, ·)
    else none

/-- A question to a runtime that is not running is lost at once. -/
def Now.fate {ρ : Type} (now : Now) : Fate ρ := if now.running then .asked else .lost

theorem Now.fate_isTaken {ρ : Type} (now : Now) : (now.fate : Fate ρ).isTaken = false := by
  unfold fate
  split
  · rfl
  · rfl

namespace Inquiring

inductive Act where
  /-- What script and the network do. -/
  | call (a : Listened.Action)
  /-- The runtime stops. -/
  | stop
  | blobReply (j : Nat) (q : BlobQuery) (outcome : q.Outcome)
  | blobGo (j : Nat) (dropped : Bool)
  | documentReply (j : Nat) (q : DocQuery) (outcome : q.Outcome)
  | documentGo (j : Nat) (dropped : Bool)

/-- The call is a question's task moving, which is told apart here. -/
def ofTask : Listened.Action → Bool
  | .questionTask .. | .documentQuestionTask .. => true
  | _ => false

/-- What a call does to the blob store's ledger. -/
def recordBlobs (accepted : Bool) (l : List (Entry BlobQuery.Outcome)) :
    Listened.Action → List (Entry BlobQuery.Outcome)
  | .request r now => if accepted then l ++ r.blob.toList.map fun q => ⟨q, now.fate⟩ else l
  | .drain _ => settle l
  | _ => l

def recordDocuments (accepted : Bool) (l : List (Entry DocQuery.Outcome)) :
    Listened.Action → List (Entry DocQuery.Outcome)
  | .request r now => if accepted then l ++ r.document.toList.map fun q => ⟨q, now.fate⟩ else l
  | .drain _ => settle l
  | _ => l

/-- The call returns true. -/
def accepts (tree : Bool) (parse : Parse) (e : Listening) : Listened.Action → Bool
  | .request r now => (e.request tree parse now r).1
  | _ => false

variable (tree : Bool) (parse : Parse) (lossy : Bytes → String)

def step (w : Inquiring) : Act → Option Inquiring
  | .call a =>
    if ofTask a then none
    else
      let accepted := accepts tree parse w.listened.endpoint a
      (w.listened.step tree parse a).map fun l =>
        { listened := l, blobs := recordBlobs accepted w.blobs a, documents := recordDocuments accepted w.documents a }
  | .stop =>
    some { w with
      listened.endpoint.questions := w.listened.endpoint.questions.map Question.stop
      listened.endpoint.documentQuestions := w.listened.endpoint.documentQuestions.map Question.stop }
  | .blobReply j q outcome =>
    (replyAt (BlobQuery.query lossy) w.blobs w.listened.endpoint.questions j q outcome).map fun x =>
      { w with blobs := x.1, listened.endpoint.questions := x.2 }
  | .blobGo j dropped =>
    (goAt w.blobs w.listened.endpoint.questions j dropped).map fun x =>
      { w with blobs := x.1, listened.endpoint.questions := x.2 }
  | .documentReply j q outcome =>
    (replyAt DocQuery.query w.documents w.listened.endpoint.documentQuestions j q outcome).map fun x =>
      { w with documents := x.1, listened.endpoint.documentQuestions := x.2 }
  | .documentGo j dropped =>
    (goAt w.documents w.listened.endpoint.documentQuestions j dropped).map fun x =>
      { w with documents := x.1, listened.endpoint.documentQuestions := x.2 }

end Inquiring

/-! ## Calls that are about something else -/

def EndpointSignal.ofBlobs : EndpointSignal → Bool
  | .blobStatus .. | .blobList _ | .tagList _ => true
  | _ => false

def EndpointSignal.ofDocuments : EndpointSignal → Bool
  | .documentList _ | .authorList _ | .authorCreated _ => true
  | _ => false

theorem answer_kind {x : Kind × String × Answer} {signal : EndpointSignal} (h : answer x = some signal) :
    signal.ofBlobs = true ∧ signal.ofDocuments = false := by
  unfold answer at h
  split at h
  · exact Option.some.inj h ▸ ⟨rfl, rfl⟩
  · exact Option.some.inj h ▸ ⟨rfl, rfl⟩
  · exact Option.some.inj h ▸ ⟨rfl, rfl⟩
  · simp at h

theorem answerDocuments_kind {x : DocKind × String × Reply} {signal : EndpointSignal}
    (h : answerDocuments x = some signal) : signal.ofBlobs = false ∧ signal.ofDocuments = true := by
  unfold answerDocuments at h
  split at h
  · exact Option.some.inj h ▸ ⟨rfl, rfl⟩
  · exact Option.some.inj h ▸ ⟨rfl, rfl⟩
  · exact Option.some.inj h ▸ ⟨rfl, rfl⟩
  · simp at h

namespace Listening

/-- The questions that wait, and what was said of those answered. -/
def talk (e : Listening) :
    (List (Question Kind Answer) × List EndpointSignal) × List (Question DocKind Reply) × List EndpointSignal :=
  ((e.questions, e.emitted.filter EndpointSignal.ofBlobs),
    e.documentQuestions, e.emitted.filter EndpointSignal.ofDocuments)

variable {tree : Bool} {e : Listening}

@[simp] theorem refreshTicking_talk : (e.refreshTicking tree).talk = e.talk := by
  rw [refreshTicking_eq]
  rfl

theorem claim_talk (alpn : Alpn) : (e.claim tree alpn).2.talk = e.talk := by
  unfold claim
  split
  · rfl
  split
  · rfl
  split
  · rfl
  · exact refreshTicking_talk

theorem claims_talk (queued : List Alpn) : (queued.foldl (fun e alpn => (e.claim tree alpn).2) e).talk = e.talk := by
  induction queued generalizing e with
  | nil => rfl
  | cons alpn queued ih => exact ih.trans (claim_talk alpn)

/-- `bound` and `bind_failed` answer no question. -/
theorem emit_talk {signal : EndpointSignal} (hb : signal.ofBlobs = false) (hd : signal.ofDocuments = false) :
    talk { e with emitted := e.emitted ++ [signal] } = e.talk := by
  simp [talk, hb, hd]

theorem settleBind_talk (outcome : Except String String) : (e.settleBind tree outcome).talk = e.talk := by
  cases outcome with
  | error reason => exact (emit_talk rfl rfl).trans refreshTicking_talk
  | ok id =>
    refine (emit_talk rfl rfl).trans ((claims_talk _).trans ?_)
    exact refreshTicking_talk (e := { e with pendingBind := none })

theorem drainBind_talk : (e.drainBind tree).talk = e.talk := by
  unfold drainBind
  split
  · rfl
  split
  · exact settleBind_talk _
  split
  · rfl
  · exact settleBind_talk _

theorem drainListener_talk (alpn : Alpn) : (e.drainListener alpn).talk = e.talk := by
  unfold drainListener
  split
  · rfl
  · rfl

theorem drainListeners_talk (order : List Alpn) : (e.drainListeners order).talk = e.talk := by
  induction order generalizing e with
  | nil => rfl
  | cons alpn order ih => exact ih.trans (drainListener_talk alpn)

theorem bind_talk (now : Now) : (e.bind tree now).talk = e.talk := by
  unfold bind
  split
  · rfl
  split
  · exact refreshTicking_talk
  · rfl

theorem listen_talk (name : String) : (e.listen tree name).2.talk = e.talk := by
  unfold listen
  simp only
  split
  · rfl
  split
  · rfl
  split
  · split
    · rfl
    split
    · rfl
    · rfl
  · exact claim_talk _

theorem filter_answers (questions : List (Question Kind Answer)) :
    ((Question.answered questions).filterMap answer).filter EndpointSignal.ofBlobs =
        (Question.answered questions).filterMap answer ∧
      ((Question.answered questions).filterMap answer).filter EndpointSignal.ofDocuments = [] := by
  refine ⟨List.filter_eq_self.2 fun signal h => ?_, List.filter_eq_nil_iff.2 fun signal h => ?_⟩
  · obtain ⟨x, -, hx⟩ := List.mem_filterMap.1 h
    exact (answer_kind hx).1
  · obtain ⟨x, -, hx⟩ := List.mem_filterMap.1 h
    simp [(answer_kind hx).2]

theorem filter_replies (questions : List (Question DocKind Reply)) :
    ((Question.answered questions).filterMap answerDocuments).filter EndpointSignal.ofBlobs = [] ∧
      ((Question.answered questions).filterMap answerDocuments).filter EndpointSignal.ofDocuments =
        (Question.answered questions).filterMap answerDocuments := by
  refine ⟨List.filter_eq_nil_iff.2 fun signal h => ?_, List.filter_eq_self.2 fun signal h => ?_⟩
  · obtain ⟨x, -, hx⟩ := List.mem_filterMap.1 h
    simp [(answerDocuments_kind hx).1]
  · obtain ⟨x, -, hx⟩ := List.mem_filterMap.1 h
    exact (answerDocuments_kind hx).2

theorem drainQuestions_talk : (e.drainQuestions tree).talk =
    ((Question.kept e.talk.1.1, e.talk.1.2 ++ (Question.answered e.talk.1.1).filterMap answer), e.talk.2) := by
  obtain ⟨hblobs, hdocuments⟩ := filter_answers e.questions
  rw [drainQuestions, refreshTicking_talk]
  simp only [talk, List.filter_append, hblobs, hdocuments, List.append_nil]

theorem drainDocumentQuestions_talk : (e.drainDocumentQuestions tree).talk =
    (e.talk.1, Question.kept e.talk.2.1, e.talk.2.2 ++ (Question.answered e.talk.2.1).filterMap answerDocuments) := by
  obtain ⟨hblobs, hdocuments⟩ := filter_replies e.documentQuestions
  rw [drainDocumentQuestions, refreshTicking_talk]
  simp only [talk, List.filter_append, hblobs, hdocuments, List.append_nil]

/-- A frame takes every answer there is. -/
theorem drain_talk (order : List Alpn) : (e.drain tree order).talk =
    ((Question.kept e.talk.1.1, e.talk.1.2 ++ (Question.answered e.talk.1.1).filterMap answer),
      Question.kept e.talk.2.1, e.talk.2.2 ++ (Question.answered e.talk.2.1).filterMap answerDocuments) := by
  unfold drain
  rw [drainDocumentQuestions_talk, drainQuestions_talk, drainListeners_talk, drainBind_talk]

/-- A question accepted is put at the end, about what was asked. -/
theorem query_talk (tree : Bool) (e : Listening) (kind : Kind) (about : String) (now : Now) :
    (e.query tree kind about now).2.talk =
      if (e.query tree kind about now).1 then ((e.talk.1.1 ++ [⟨kind, about, now.ask⟩], e.talk.1.2), e.talk.2)
      else e.talk := by
  unfold query
  simp only
  split
  · exact refreshTicking_talk
  · rfl

theorem queryDocuments_talk (tree : Bool) (e : Listening) (kind : DocKind) (about : String) (now : Now) :
    (e.queryDocuments tree kind about now).2.talk =
      if (e.queryDocuments tree kind about now).1 then
        (e.talk.1, e.talk.2.1 ++ [⟨kind, about, now.ask⟩], e.talk.2.2)
      else e.talk := by
  unfold queryDocuments
  simp only
  split
  · exact refreshTicking_talk
  · rfl

/-- A call is turned down, or puts its question to one of the stores. -/
theorem request_asks (tree : Bool) (parse : Parse) (e : Listening) (now : Now) (r : Request) :
    e.request tree parse now r = (false, e) ∨
    (∃ q, r.blob = some q ∧ r.document = none ∧ e.request tree parse now r = e.query tree q.kind q.about now) ∨
    ∃ q, r.document = some q ∧ r.blob = none ∧
      e.request tree parse now r = e.queryDocuments tree q.kind q.about now := by
  cases r with
  | blobStatus hash =>
    simp only [request, requestBlobStatus]
    split
    · exact .inr (.inl ⟨.status hash, rfl, rfl, rfl⟩)
    · exact .inl rfl
  | blobList => exact .inr (.inl ⟨.list, rfl, rfl, rfl⟩)
  | tag hash name =>
    simp only [request, tagBlob]
    split
    · split
      · exact .inl rfl
      · exact .inr (.inl ⟨.tag hash name, rfl, rfl, rfl⟩)
    · exact .inl rfl
  | untag name =>
    simp only [request, untagBlob]
    split
    · exact .inl rfl
    · exact .inr (.inl ⟨.untag name, rfl, rfl, rfl⟩)
  | tagList => exact .inr (.inl ⟨.tags, rfl, rfl, rfl⟩)
  | documentList => exact .inr (.inr ⟨.list, rfl, rfl, rfl⟩)
  | dropDocument id =>
    simp only [request, dropDocument]
    split
    · exact .inr (.inr ⟨.dropDoc id, rfl, rfl, rfl⟩)
    · exact .inl rfl
  | authorList => exact .inr (.inr ⟨.authors, rfl, rfl, rfl⟩)
  | createAuthor => exact .inr (.inr ⟨.createAuthor, rfl, rfl, rfl⟩)
  | setDefaultAuthor author =>
    simp only [request, setDefaultAuthor]
    split
    · exact .inr (.inr ⟨.setDefaultAuthor author, rfl, rfl, rfl⟩)
    · exact .inl rfl

/-- What a call asks, of either store, becomes a question if it is accepted. -/
theorem request_talk (tree : Bool) (parse : Parse) (e : Listening) (now : Now) (r : Request) :
    (e.request tree parse now r).2.talk =
      if (e.request tree parse now r).1 then
        ((e.talk.1.1 ++ r.blob.toList.map fun q => ⟨q.kind, q.about, now.ask⟩, e.talk.1.2),
          e.talk.2.1 ++ r.document.toList.map fun q => ⟨q.kind, q.about, now.ask⟩, e.talk.2.2)
      else e.talk := by
  rcases request_asks tree parse e now r with he | ⟨q, hb, hd, he⟩ | ⟨q, hd, hb, he⟩
  · simp [he]
  · rw [he, query_talk, hb, hd]
    simp
  · rw [he, queryDocuments_talk, hb, hd]
    simp

end Listening

namespace Inquiring

open Listening

/-- What a call does to the questions and the signals about them. -/
theorem call_talk {tree : Bool} {parse : Parse} {l l' : Listened} {a : Listened.Action} (ha : ofTask a = false)
    (h : l.step tree parse a = some l') : l'.endpoint.talk =
      match a with
      | .drain _ =>
        ((Question.kept l.endpoint.talk.1.1,
            l.endpoint.talk.1.2 ++ (Question.answered l.endpoint.talk.1.1).filterMap answer),
          Question.kept l.endpoint.talk.2.1,
          l.endpoint.talk.2.2 ++ (Question.answered l.endpoint.talk.2.1).filterMap answerDocuments)
      | .request r now => (l.endpoint.request tree parse now r).2.talk
      | _ => l.endpoint.talk := by
  cases a with
  | bind now =>
    obtain rfl := Option.some.inj h
    exact bind_talk now
  | drain order =>
    simp only [Listened.step] at h
    split at h
    · obtain rfl := Option.some.inj h
      exact drain_talk order
    · simp at h
  | listen name =>
    obtain rfl := Option.some.inj h
    exact listen_talk name
  | stopListening name =>
    obtain rfl := Option.some.inj h
    exact refreshTicking_talk
  | request r now =>
    obtain rfl := Option.some.inj h
    rfl
  | blob starts | subscribe starts | document starts =>
    obtain rfl := Option.some.inj h
    rfl
  | close =>
    obtain rfl := Option.some.inj h
    exact refreshTicking_talk
  | bindTask m =>
    obtain ⟨p, -, h⟩ := Option.bind_eq_some_iff.1 h
    obtain ⟨p', -, rfl⟩ := Option.map_eq_some_iff.1 h
    rfl
  | questionTask i m | documentQuestionTask i m => simp [ofTask] at ha
  | arrive alpn connection =>
    obtain ⟨waiting, -, rfl⟩ := Option.map_eq_some_iff.1 h
    rfl
  | register alpn | release alpn =>
    simp only [Listened.step] at h
    split at h
    · obtain rfl := Option.some.inj h
      rfl
    · simp at h

end Inquiring

end Gdiroh.Endpoint
