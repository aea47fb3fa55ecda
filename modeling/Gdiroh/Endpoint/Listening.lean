/-
What an endpoint listens for, and what it polls for (`endpoint.rs`). A
protocol asked for while a bind is in flight is queued, and claimed once the
bind has come through.

Each call is one step. In between, tasks send and end, connections arrive for
the claims, and others register on the dispatcher and go. Whether a store can
be started and whether the runtime is running is up to the run, as is the
order in which a `HashMap` yields its keys. The endpoint's lease is with its
other handles.
-/
import Gdiroh.Dispatch.Dispatcher
import Gdiroh.Endpoint.Handles
import Gdiroh.Lib.Machine

namespace Gdiroh.Endpoint

open Polled Dispatch

/-- `session::ALPN`, which is `gdiroh/0`. -/
def sessionAlpn : Alpn := [103, 100, 105, 114, 111, 104, 47, 48]

/-- A protocol's name as the ALPN it stands for. -/
def alpnOf (name : String) : Alpn := name.toUTF8.toList

/-- A text that may be left empty. -/
def optional (value : String) : Option String := if value.toList.all isWhitespace then none else some value

/-- Which texts are a blob hash, a document id and an author id. -/
structure Parse where
  hash : String → Bool
  id : String → Bool
  author : String → Bool

/-- What a call finds: which stores can be started, and whether the runtime is
running. -/
structure Now where
  starts : Starts := {}
  running : Bool := true

/-- A question to a runtime that is not running goes unsaid. -/
def Now.ask {ε : Type} (now : Now) : Producer ε := if now.running then .spawned else .unspawned none

structure Listening extends IrohEndpoint where
  pendingBind : Option (Producer (Except String String)) := none
  /-- The claims, each with the connections waiting in it. -/
  listeners : AList fun _ : Alpn => List Nat := ∅
  /-- Asked for while the bind was in flight. -/
  pendingListens : List Alpn := []
  /-- Every ALPN claimed on the dispatcher, here or elsewhere. -/
  registry : List Alpn := []
  questions : List (Question Kind Answer) := []
  documentQuestions : List (Question DocKind Reply) := []
  ticking : Bool := false
  emitted : List EndpointSignal := []
  /-- `connection_received`, with the protocol and the connection. -/
  received : List (Alpn × Nat) := []

namespace Listening

/-- Something needs polling. -/
def outstanding (e : Listening) : Bool :=
  e.pendingBind.isSome || !e.listeners.keys.isEmpty || !e.questions.isEmpty || !e.documentQuestions.isEmpty

section
variable (tree : Bool) (e : Listening)

/-- Subscribes to the frame signal; without a scene tree there is none. -/
def startTicking : Listening := if e.ticking then e else if tree then { e with ticking := true } else e

def stopTicking : Listening := if e.ticking then { e with ticking := false } else e

/-- Keeps the frame subscription matching whether anything needs polling. -/
def refreshTicking : Listening := if e.outstanding then e.startTicking tree else e.stopTicking

/-- Claims one ALPN on the dispatcher, if it is not already held. -/
def claim (alpn : Alpn) : Bool × Listening :=
  if alpn ∈ e.listeners then (true, e)
  else if e.bound = false then (false, e)
  else if alpn ∈ e.registry then (false, e)
  else
    (true, refreshTicking tree { e with
      listeners := e.listeners.insert alpn []
      registry := alpn :: e.registry })

/-- A bind that has come to an end. -/
def settleBind (outcome : Except String String) : Listening :=
  let e := refreshTicking tree { e with pendingBind := none }
  match outcome with
  | .ok id =>
    -- Anything asked for while the bind was in flight.
    let queued := e.pendingListens
    let e := { e with bound := true, registry := [], pendingListens := [] }
    let e := queued.foldl (fun e alpn => (e.claim tree alpn).2) e
    { e with emitted := e.emitted ++ [.bound id] }
  | .error reason => { e with emitted := e.emitted ++ [.bindFailed reason] }

/-- Settles a bind that has finished, if one has. -/
def drainBind : Listening :=
  match e.pendingBind with
  | none => e
  | some p =>
    match p.queue with
    | result :: _ => e.settleBind tree result
    -- `TryRecvError::Empty` and `TryRecvError::Closed`.
    | [] => if p.there then e else e.settleBind tree (.error "the bind task was dropped")

/-- Takes every connection that waits in one claim. -/
def drainListener (alpn : Alpn) : Listening :=
  match e.listeners.lookup alpn with
  | none => e
  | some waiting =>
    { e with
      listeners := e.listeners.insert alpn []
      received := e.received ++ waiting.map fun connection => (alpn, connection) }

/-- Hands script every connection that arrived for a listened-for ALPN. -/
def drainListeners (order : List Alpn) : Listening := order.foldl drainListener e

/-- Answers the store questions that have come back. -/
def drainQuestions : Listening :=
  refreshTicking tree { e with
    questions := Question.kept e.questions
    emitted := e.emitted ++ (Question.answered e.questions).filterMap answer }

/-- Answers the document-store questions that have come back. -/
def drainDocumentQuestions : Listening :=
  refreshTicking tree { e with
    documentQuestions := Question.kept e.documentQuestions
    emitted := e.emitted ++ (Question.answered e.documentQuestions).filterMap answerDocuments }

/-- `_drain`. -/
def drain (order : List Alpn) : Listening :=
  (((e.drainBind tree).drainListeners order).drainQuestions tree).drainDocumentQuestions tree

/-- Queues a question and starts polling for its answer. -/
def asking (kind : Kind) (about : String) (ask : Producer Answer) : Listening :=
  refreshTicking tree { e with questions := e.questions ++ [⟨kind, about, ask⟩] }

/-- Queues a document question and starts polling for its answer. -/
def askingDocuments (kind : DocKind) (about : String) (ask : Producer Reply) : Listening :=
  refreshTicking tree { e with documentQuestions := e.documentQuestions ++ [⟨kind, about, ask⟩] }

/-- Starts listening. -/
def bind (now : Now) : Listening :=
  if e.pendingBind.isSome ∨ e.bound then e
  else if now.running then refreshTicking tree { e with pendingBind := some .spawned }
  else e

/-- Accepts incoming connections for a protocol. -/
def listen (name : String) : Bool × Listening :=
  let alpn := alpnOf name
  if alpn = [] then (false, e)
  else if alpn = sessionAlpn then (false, e)
  else if e.bound = false then
    if e.pendingBind.isNone then (false, e)
    else if alpn ∈ e.pendingListens then (true, e)
    else (true, { e with pendingListens := e.pendingListens ++ [alpn] })
  else e.claim tree alpn

/-- Stops accepting connections for a protocol; a dropped claim is released. -/
def stopListening (name : String) : Listening :=
  let alpn := alpnOf name
  refreshTicking tree { e with
    pendingListens := e.pendingListens.filter (· ≠ alpn)
    listeners := e.listeners.erase alpn
    registry := if alpn ∈ e.listeners then e.registry.erase alpn else e.registry }

/-- Everything closing has to do. -/
def teardown : Listening :=
  { e with
    toIrohEndpoint := e.toIrohEndpoint.teardown, pendingBind := none, listeners := ∅, pendingListens := [],
    registry := [] }

def close : Listening := refreshTicking tree e.teardown

/-- Puts a question to the blob store. -/
def query (kind : Kind) (about : String) (now : Now) : Bool × Listening :=
  let e := { e with toIrohEndpoint := e.toIrohEndpoint.startDepot now.starts }
  if e.depot.isSome then (true, e.asking tree kind about now.ask) else (false, e)

/-- Puts a question to the document store. -/
def queryDocuments (kind : DocKind) (about : String) (now : Now) : Bool × Listening :=
  let e := { e with toIrohEndpoint := e.toIrohEndpoint.startLibrary now.starts }
  if e.library.isSome then (true, e.askingDocuments tree kind about now.ask) else (false, e)

variable (parse : Parse) (now : Now)

def requestBlobStatus (hash : String) : Bool × Listening :=
  if parse.hash hash then e.query tree .status hash now else (false, e)

def requestBlobList : Bool × Listening := e.query tree .blobs "blob list" now

def tagBlob (hash tag : String) : Bool × Listening :=
  if parse.hash hash then
    match optional tag with
    | none => (false, e)
    | some _ => e.query tree .mutation ("tagging " ++ hash) now
  else (false, e)

def untagBlob (tag : String) : Bool × Listening :=
  match optional tag with
  | none => (false, e)
  | some _ => e.query tree .mutation ("untagging " ++ tag) now

def requestTagList : Bool × Listening := e.query tree .tags "tag list" now

def requestDocumentList : Bool × Listening := e.queryDocuments tree .documents "document list" now

def dropDocument (id : String) : Bool × Listening :=
  if parse.id id then e.queryDocuments tree .mutation ("dropping " ++ id) now else (false, e)

def requestAuthorList : Bool × Listening := e.queryDocuments tree .authors "author list" now

def createAuthor : Bool × Listening := e.queryDocuments tree .newAuthor "creating an author" now

def setDefaultAuthor (author : String) : Bool × Listening :=
  if parse.author author then e.queryDocuments tree .mutation ("choosing author " ++ author) now else (false, e)

end

/-- A call that puts a question to a store. -/
inductive Request where
  | blobStatus (hash : String)
  | blobList
  | tag (hash tag : String)
  | untag (tag : String)
  | tagList
  | documentList
  | dropDocument (id : String)
  | authorList
  | createAuthor
  | setDefaultAuthor (author : String)

def request (tree : Bool) (parse : Parse) (e : Listening) (now : Now) : Request → Bool × Listening
  | .blobStatus hash => e.requestBlobStatus tree parse now hash
  | .blobList => e.requestBlobList tree now
  | .tag hash tag => e.tagBlob tree parse now hash tag
  | .untag tag => e.untagBlob tree now tag
  | .tagList => e.requestTagList tree now
  | .documentList => e.requestDocumentList tree now
  | .dropDocument id => e.dropDocument tree parse now id
  | .authorList => e.requestAuthorList tree now
  | .createAuthor => e.createAuthor tree now
  | .setDefaultAuthor author => e.setDefaultAuthor tree parse now author

end Listening

/-! ## Calls -/

/-- What script did about listening. -/
inductive Asking where
  /-- `listen` returned true. -/
  | listened (alpn : Alpn)
  | stopped (alpn : Alpn)
  | closed
deriving DecidableEq

/-- Since the last close, the most recent of a `listen` that returned true and
a `stop_listening` was the `listen`. -/
def Asked (calls : List Asking) (alpn : Alpn) : Prop :=
  ∃ before after, calls = before ++ .listened alpn :: after ∧ .stopped alpn ∉ after ∧ .closed ∉ after

/-- An endpoint, with what script did about listening. -/
structure Listened where
  endpoint : Listening := {}
  calls : List Asking := []

namespace Listened

inductive Action where
  | bind (now : Now)
  | drain (order : List Alpn)
  | listen (name : String)
  | stopListening (name : String)
  | request (r : Listening.Request) (now : Now)
  /-- Any other use of the blob store, of gossip or of documents. -/
  | blob (starts : Starts)
  | subscribe (starts : Starts)
  | document (starts : Starts)
  | close
  | bindTask (m : Move (Except String String))
  | questionTask (i : Nat) (m : Move Answer)
  | documentQuestionTask (i : Nat) (m : Move Reply)
  /-- A connection is routed to a claim. -/
  | arrive (alpn : Alpn) (connection : Nat)
  /-- Someone else claims an ALPN on the dispatcher, or drops a claim. -/
  | register (alpn : Alpn)
  | release (alpn : Alpn)

variable (tree : Bool) (parse : Parse)

def step (l : Listened) : Action → Option Listened
  | .bind now => some { l with endpoint := l.endpoint.bind tree now }
  | .drain order =>
    if order.Perm (l.endpoint.drainBind tree).listeners.keys then
      some { l with endpoint := l.endpoint.drain tree order }
    else none
  | .listen name =>
    let (accepted, e) := l.endpoint.listen tree name
    some { endpoint := e, calls := if accepted then l.calls ++ [.listened (alpnOf name)] else l.calls }
  | .stopListening name =>
    some { endpoint := l.endpoint.stopListening tree name, calls := l.calls ++ [.stopped (alpnOf name)] }
  | .request r now => some { l with endpoint := (l.endpoint.request tree parse now r).2 }
  | .blob starts =>
    some { l with endpoint.toIrohEndpoint := l.endpoint.toIrohEndpoint.startDepot starts }
  | .subscribe starts =>
    some { l with endpoint.toIrohEndpoint := l.endpoint.toIrohEndpoint.startSwarm starts }
  | .document starts =>
    some { l with endpoint.toIrohEndpoint := l.endpoint.toIrohEndpoint.startLibrary starts }
  | .close => some { endpoint := l.endpoint.close tree, calls := l.calls ++ [.closed] }
  | .bindTask m =>
    l.endpoint.pendingBind.bind fun p =>
      (p.move (fun _ => true) m).map fun p => { l with endpoint.pendingBind := some p }
  | .questionTask i m =>
    (changeAt l.endpoint.questions i (·.move m)).map fun qs => { l with endpoint.questions := qs }
  | .documentQuestionTask i m =>
    (changeAt l.endpoint.documentQuestions i (·.move m)).map fun qs => { l with endpoint.documentQuestions := qs }
  | .arrive alpn connection =>
    (l.endpoint.listeners.lookup alpn).map fun waiting =>
      { l with endpoint.listeners := l.endpoint.listeners.insert alpn (waiting ++ [connection]) }
  | .register alpn =>
    if l.endpoint.bound ∧ alpn ∉ l.endpoint.registry then
      some { l with endpoint.registry := alpn :: l.endpoint.registry }
    else none
  | .release alpn =>
    if alpn ∈ l.endpoint.registry ∧ alpn ∉ l.endpoint.listeners then
      some { l with endpoint.registry := l.endpoint.registry.erase alpn }
    else none

end Listened
end Gdiroh.Endpoint
