/-
What script waits for: the questions an endpoint has put to its stores
(`endpoint.rs`), and the objects for a blob operation, a gossip topic and a
document (`transfer.rs`, `topic.rs`, `document.rs`). Behind each is a task on
the network runtime (`runtime.rs`), which stops with the last lease: a task
is then dropped where it next waits.

Main-thread code is one step each. A task's sending and its going are steps of
their own, whenever they come. Whether a store can be started, and whether the
runtime can be built, is up to the run, as is what the tasks send. Hashes and
ids are by their text. Of the listeners, only whether there are any is here.
-/
import Gdiroh.Endpoint.Stores
import Gdiroh.Lib.Bytes
import Gdiroh.Lib.Polled
import Gdiroh.Docs.Document

namespace Gdiroh.Endpoint

open Polled

/-! ## Transfers -/

/-- How a transfer is getting on. -/
inductive TransferEvent where
  | size (size : UInt64)
  | progress (done : UInt64)
  | done (hash : String) (data : Bytes)
  | failed (reason : String)

/-- Exactly one of these ends a transfer. -/
def TransferEvent.final : TransferEvent → Bool
  | .done .. | .failed _ => true
  | .size _ | .progress _ => false

inductive TransferSignal where
  | progress (done total : Int64)
  | completed (hash : String) (data : Bytes)
  | failed (reason : String)
deriving DecidableEq

structure TransferFields where
  total : UInt64 := 0
  hash : String := ""
  done : UInt64 := 0
  emitted : List TransferSignal := []

/-- One blob operation in flight. -/
abbrev IrohTransfer := Object TransferEvent TransferFields

namespace IrohTransfer

def emitLater (o : IrohTransfer) (signal : TransferSignal) : IrohTransfer :=
  { o with own := { o.own with emitted := o.own.emitted ++ [signal] } }

def handle (o : IrohTransfer) : TransferEvent → IrohTransfer
  | .size size =>
    emitLater { o with own := { o.own with total := size } } (.progress o.own.done.toInt64 size.toInt64)
  | .progress done =>
    emitLater { o with own := { o.own with done := done } } (.progress done.toInt64 o.own.total.toInt64)
  | .done hash data =>
    emitLater (Object.finished { o with own := { o.own with hash := hash } }) (.completed hash data)
  | .failed reason => emitLater o.finished (.failed reason)

end IrohTransfer

/-! ## Topics -/

/-- Something that happened on a topic. -/
inductive TopicEvent where
  | neighborUp (peer : String)
  | neighborDown (peer : String)
  | message (content : Bytes) (sender : String) (direct : Bool)
  /-- We fell behind. The topic is finished. -/
  | lagged
  | closed (reason : String)

def TopicEvent.final : TopicEvent → Bool
  | .lagged | .closed _ => true
  | .neighborUp _ | .neighborDown _ | .message .. => false

/-- A gossip topic, with the signals emitted: one for each event, of the same
name and data. -/
abbrev IrohTopic := Object TopicEvent (List TopicEvent)

def IrohTopic.handle (o : IrohTopic) (e : TopicEvent) : IrohTopic :=
  let o := { o with own := o.own ++ [e] }
  match e with
  | .neighborUp _ | .neighborDown _ | .message .. => o
  | .lagged | .closed _ => o.finished

/-! ## Documents -/

/-- Something that happened to a document. -/
inductive DocumentEvent where
  | opened (id : String)
  /-- `sender` is `none` when we wrote it ourselves. -/
  | entry (key : Bytes) (author hash : String) (len : UInt64) (sender : Option String)
  | contentReady (hash : String)
  | keys (start : Bytes) (entries : List (Docs.KeyInfo String String))
  | status (syncing : Bool) (subscribers handles : UInt32)
  | value (key : Bytes) (data : Option Bytes)
  | shared (ticket : String)
  | syncFinished (peer : String)
  | neighborUp (peer : String)
  | neighborDown (peer : String)
  | closed (reason : String)

def DocumentEvent.final : DocumentEvent → Bool
  | .closed _ => true
  | _ => false

structure DocumentFields where
  id : String := ""
  /-- The signals emitted, one for each event. -/
  emitted : List DocumentEvent := []

abbrev IrohDocument := Object DocumentEvent DocumentFields

def IrohDocument.handle (o : IrohDocument) (e : DocumentEvent) : IrohDocument :=
  let o := { o with own := { o.own with emitted := o.own.emitted ++ [e] } }
  match e with
  | .opened id => { o with own := { o.own with id := id } }
  | .closed _ => o.finished
  | _ => o

/-! ## Questions -/

/-- What a blob store query came back with. -/
inductive Answer where
  | done
  | status (present complete : Bool) (size : UInt64)
  | names (names : List String)
  | failed (reason : String)

inductive Kind where
  | status
  | blobs
  | tags
  | mutation

/-- What a document-store query came back with. -/
inductive Reply where
  | names (names : List String)
  | done
  | failed (reason : String)

inductive DocKind where
  | documents
  | authors
  | newAuthor
  | mutation

/-- A question in flight, and what it was about. The blob store's and the
document store's differ in their kinds and answers. -/
structure Question (κ ε : Type) where
  kind : κ
  about : String
  ask : Producer ε

namespace Question

variable {κ ε : Type}

def move (q : Question κ ε) (m : Move ε) : Option (Question κ ε) :=
  (q.ask.move (fun _ => true) m).map fun ask => { q with ask }

def stop (q : Question κ ε) : Question κ ε := { q with ask := q.ask.stop }

/-- `retain_mut`: the questions without an answer are kept. -/
def kept (questions : List (Question κ ε)) : List (Question κ ε) := questions.filter (·.ask.queue.isEmpty)

def answered (questions : List (Question κ ε)) : List (κ × String × ε) :=
  questions.filterMap fun q => q.ask.queue.head?.map fun answer => (q.kind, q.about, answer)

end Question

inductive EndpointSignal where
  | bound (id : String)
  | bindFailed (reason : String)
  | blobStatus (hash : String) (present complete : Bool) (size : Int64)
  | blobList (hashes : List String)
  | tagList (tags : List String)
  | documentList (ids : List String)
  | authorList (authors : List String)
  | authorCreated (author : String)
deriving DecidableEq

/-- The signal for an answer. A mutation only reports back when it went
wrong, and what goes wrong is only logged. -/
def answer : Kind × String × Answer → Option EndpointSignal
  | (.status, about, .status present complete size) => some (.blobStatus about present complete size.toInt64)
  | (.blobs, _, .names names) => some (.blobList names)
  | (.tags, _, .names names) => some (.tagList names)
  | _ => none

def answerDocuments : DocKind × String × Reply → Option EndpointSignal
  | (.documents, _, .names ids) => some (.documentList ids)
  | (.authors, _, .names authors) => some (.authorList authors)
  | (.newAuthor, _, .names author) => some (.authorCreated (author.head?.getD ""))
  | _ => none

/-! ## The endpoint -/

/-- An endpoint, with what it waits for. -/
structure Waiting extends IrohEndpoint where
  lease : Bool := false
  pendingBind : Option (Producer (Except String String)) := none
  /-- There are listeners. -/
  listening : Bool := false
  questions : List (Question Kind Answer) := []
  documentQuestions : List (Question DocKind Reply) := []
  ticking : Bool := false
  emitted : List EndpointSignal := []

namespace Waiting

/-- Something needs polling. -/
def outstanding (e : Waiting) : Bool :=
  e.pendingBind.isSome || e.listening || !e.questions.isEmpty || !e.documentQuestions.isEmpty

section
variable (tree : Bool)

/-- Keeps the frame subscription matching whether anything needs polling.
Without a scene tree nothing can be subscribed to. -/
def refreshTicking (e : Waiting) : Waiting :=
  { e with ticking := if e.outstanding then e.ticking || tree else false }

/-- A bind that has come to an end. -/
def settleBind (e : Waiting) (outcome : Except String String) : Waiting :=
  let e := refreshTicking tree { e with pendingBind := none }
  match outcome with
  | .ok id => { e with bound := true, emitted := e.emitted ++ [.bound id] }
  | .error reason => { e with emitted := e.emitted ++ [.bindFailed reason] }

/-- Settles a bind that has finished, if one has. -/
def drainBind (e : Waiting) : Waiting :=
  match e.pendingBind with
  | none => e
  | some p =>
    match p.queue with
    | result :: _ => e.settleBind tree result
    -- `TryRecvError::Empty` and `TryRecvError::Closed`.
    | [] => if p.there then e else e.settleBind tree (.error "the bind task was dropped")

/-- Answers the store questions that have come back. -/
def drainQuestions (e : Waiting) : Waiting :=
  refreshTicking tree { e with
    questions := Question.kept e.questions
    emitted := e.emitted ++ (Question.answered e.questions).filterMap answer }

/-- Answers the document-store questions that have come back. -/
def drainDocumentQuestions (e : Waiting) : Waiting :=
  refreshTicking tree { e with
    documentQuestions := Question.kept e.documentQuestions
    emitted := e.emitted ++ (Question.answered e.documentQuestions).filterMap answerDocuments }

def drain (e : Waiting) : Waiting := ((e.drainBind tree).drainQuestions tree).drainDocumentQuestions tree

def asking (e : Waiting) (kind : Kind) (about : String) (ask : Producer Answer) : Waiting :=
  refreshTicking tree { e with questions := e.questions ++ [⟨kind, about, ask⟩] }

def askingDocuments (e : Waiting) (kind : DocKind) (about : String) (ask : Producer Reply) : Waiting :=
  refreshTicking tree { e with documentQuestions := e.documentQuestions ++ [⟨kind, about, ask⟩] }

end
end Waiting

/-! ## The runtime and everything on it -/

structure World where
  /-- The network runtime is running. -/
  runtime : Bool := false
  /-- Live leases. The runtime stops when this reaches zero. -/
  holders : Nat := 0
  /-- Leases of other endpoints. -/
  others : Nat := 0
  endpoint : Waiting := {}
  transfers : List IrohTransfer := []
  topics : List IrohTopic := []
  documents : List IrohDocument := []

namespace World

/-- The runtime is stopped, and every task with it. -/
def stopRuntime (w : World) : World :=
  { w with
    runtime := false
    endpoint :=
      { w.endpoint with
        pendingBind := w.endpoint.pendingBind.map Producer.stop
        questions := w.endpoint.questions.map Question.stop
        documentQuestions := w.endpoint.documentQuestions.map Question.stop }
    transfers := w.transfers.map Object.stop
    topics := w.topics.map Object.stop
    documents := w.documents.map Object.stop }

/-- `Lease::acquire`: starts the runtime if it is not there. `built` is
whether it could be. -/
def acquire (w : World) (built : Bool) : Option World :=
  if w.runtime ∨ built then some { w with runtime := true, holders := w.holders + 1 } else none

/-- A lease is dropped. -/
def release (w : World) : World :=
  let w := { w with holders := w.holders - 1 }
  if 0 < w.holders then w else if w.runtime then w.stopRuntime else w

/-- Stops the runtime regardless of who still holds a lease. -/
def shutdown (w : World) : World :=
  let w := { w with holders := 0 }
  if w.runtime then w.stopRuntime else w

/-- `detach`. Where nothing can be spawned, `failed` is sent instead, if
anything. -/
def detach {ε : Type} (w : World) (failed : Option ε) : Producer ε :=
  if w.runtime then .spawned else .unspawned failed

/-- No store can be started without the runtime. -/
def starts (w : World) (s : Starts) : Starts :=
  { depot := s.depot && w.runtime, swarm := s.swarm && w.runtime, library := s.library && w.runtime }

def notRunning : String := "the network runtime is not running"

/-- The endpoint's blob store, started on first use. -/
def depot (w : World) (s : Starts) : World :=
  { w with endpoint.toIrohEndpoint := w.endpoint.toIrohEndpoint.startDepot (w.starts s) }

def swarm (w : World) (s : Starts) : World :=
  { w with endpoint.toIrohEndpoint := w.endpoint.toIrohEndpoint.startSwarm (w.starts s) }

def library (w : World) (s : Starts) : World :=
  { w with endpoint.toIrohEndpoint := w.endpoint.toIrohEndpoint.startLibrary (w.starts s) }

section
variable (tree : Bool)

/-- The endpoint's own lease, held from the first bind until it closes. -/
def lease (w : World) (built : Bool) : World :=
  if w.endpoint.lease then w
  else
    match w.acquire built with
    | some w => { w with endpoint := { w.endpoint with lease := true } }
    | none => w

def bind (w : World) (built : Bool) : World :=
  if w.endpoint.pendingBind.isSome ∨ w.endpoint.bound then w
  else
    let w := w.lease built
    if w.runtime then { w with endpoint := { w.endpoint with pendingBind := some .spawned }.refreshTicking tree }
    else w

/-- Everything closing has to do. -/
def teardown (w : World) : World :=
  let e : Waiting :=
    { w.endpoint with toIrohEndpoint := w.endpoint.toIrohEndpoint.teardown, pendingBind := none, listening := false,
                      lease := false }
  if w.endpoint.lease then release { w with endpoint := e } else { w with endpoint := e }

def close (w : World) : World :=
  let w := w.teardown
  { w with endpoint := w.endpoint.refreshTicking tree }

/-- Puts a question to the blob store; a question to a runtime that is not
running goes unsaid. -/
def query (w : World) (kind : Kind) (about : String) (s : Starts) : World :=
  let w := w.depot s
  if w.endpoint.depot.isSome then { w with endpoint := w.endpoint.asking tree kind about (w.detach none) } else w

def queryDocuments (w : World) (kind : DocKind) (about : String) (s : Starts) : World :=
  let w := w.library s
  if w.endpoint.library.isSome then
    { w with endpoint := w.endpoint.askingDocuments tree kind about (w.detach none) }
  else w

/-- Any add, fetch, export or read. -/
def transfer (w : World) (s : Starts) : World :=
  let w := w.depot s
  if w.endpoint.depot.isSome then
    { w with transfers := w.transfers ++ [.wrap tree (w.detach (some (.failed notRunning))) {}] }
  else w

def subscribe (w : World) (s : Starts) : World :=
  let w := w.swarm s
  if w.endpoint.swarm then { w with topics := w.topics ++ [.wrap tree (w.detach (some (.closed notRunning))) []] }
  else w

/-- Creates, opens or joins a document. -/
def openDocument (w : World) (s : Starts) : World :=
  let w := w.library s
  if w.endpoint.library.isSome then
    { w with documents := w.documents ++ [.wrap tree (w.detach (some (.closed notRunning))) {}] }
  else w

inductive Action where
  /-- Another endpoint takes a lease, or drops one. -/
  | acquire (built : Bool)
  | release
  /-- The extension is unloaded. -/
  | shutdown
  | bind (built : Bool)
  | bindTask (m : Move (Except String String))
  /-- Listeners come or go. -/
  | listening (any : Bool)
  | drain
  | close
  | query (kind : Kind) (about : String) (s : Starts)
  | queryDocuments (kind : DocKind) (about : String) (s : Starts)
  | questionTask (i : Nat) (m : Move Answer)
  | documentQuestionTask (i : Nat) (m : Move Reply)
  | transfer (s : Starts)
  | subscribe (s : Starts)
  | openDocument (s : Starts)
  /-- `finished` is `cancel`, `leave` and `close`. -/
  | onTransfer (a : Object.Act TransferEvent)
  | onTopic (a : Object.Act TopicEvent)
  | onDocument (a : Object.Act DocumentEvent)

def step (w : World) : Action → Option World
  | .acquire built => (w.acquire built).map fun w => { w with others := w.others + 1 }
  | .release => if 0 < w.others then some (release { w with others := w.others - 1 }) else none
  | .shutdown => some w.shutdown
  | .bind built => some (w.bind tree built)
  | .bindTask m =>
    w.endpoint.pendingBind.bind fun p =>
      (p.move (fun _ => true) m).map fun p => { w with endpoint := { w.endpoint with pendingBind := some p } }
  | .listening any => some { w with endpoint := { w.endpoint with listening := any }.refreshTicking tree }
  | .drain => some { w with endpoint := w.endpoint.drain tree }
  | .close => some (w.close tree)
  | .query kind about s => some (w.query tree kind about s)
  | .queryDocuments kind about s => some (w.queryDocuments tree kind about s)
  | .questionTask i m =>
    (changeAt w.endpoint.questions i (·.move m)).map fun qs =>
      { w with endpoint := { w.endpoint with questions := qs } }
  | .documentQuestionTask i m =>
    (changeAt w.endpoint.documentQuestions i (·.move m)).map fun qs =>
      { w with endpoint := { w.endpoint with documentQuestions := qs } }
  | .transfer s => some (w.transfer tree s)
  | .subscribe s => some (w.subscribe tree s)
  | .openDocument s => some (w.openDocument tree s)
  | .onTransfer a =>
    (Object.act TransferEvent.final IrohTransfer.handle w.transfers a).map fun os => { w with transfers := os }
  | .onTopic a => (Object.act TopicEvent.final IrohTopic.handle w.topics a).map fun os => { w with topics := os }
  | .onDocument a =>
    (Object.act DocumentEvent.final IrohDocument.handle w.documents a).map fun os => { w with documents := os }

end
end World
end Gdiroh.Endpoint
