/-
The tasks behind a gossip topic (`run` in `gossip.rs`), a document (`run` in
`docs.rs`) and a blob operation (`Depot::run` and `Depot::read` in
`blobs.rs`), each with everything it sends.

A task's step is what it does between two waits; what it waited for comes back
as the step's argument. So the gossip swarm, the document engine and the blob
store answer as they like, in any order with the main thread, which puts
commands and may drop its handle. `sent` has also what was sent after that,
which nobody receives. A task goes when the runtime stops, where it waits.
-/
import Gdiroh.Endpoint.Handles
import Mathlib.Data.Finset.Basic

namespace Gdiroh.Endpoint

/-! ## A topic -/

/-- What a subscription yields. -/
inductive SwarmEvent where
  | neighborUp (peer : String)
  | neighborDown (peer : String)
  | received (content : Bytes) (deliveredFrom : String) (direct : Bool)
  | lagged

inductive TopicCommand where
  | broadcast (message : Bytes)
  | broadcastNeighbors (message : Bytes)
  | join (peers : List String)

inductive TopicPhase where
  | subscribing
  | looping
  | ended
deriving DecidableEq

structure TopicTask where
  phase : TopicPhase := .subscribing
  commands : List TopicCommand := []
  /-- The `Topic` exists. -/
  held : Bool := true
  /-- Shared with the main thread. -/
  neighbors : Finset String := ∅
  sent : List TopicEvent := []

namespace TopicTask

inductive Act where
  /-- `gossip.subscribe` comes back. -/
  | subscribed (outcome : Except String Unit)
  /-- The main thread puts a command. -/
  | order (command : TopicCommand)
  /-- The `Topic` is dropped. -/
  | drop
  /-- The command arm, and how the command went. -/
  | command (outcome : Except String Unit)
  /-- The other arm; `none` is the end of the stream. -/
  | event (item : Option (Except String SwarmEvent))
  /-- The runtime stops. -/
  | abandon

/-- `Swarm::subscribe`, with the runtime running or not. -/
def subscribe (running : Bool) : TopicTask :=
  if running then {} else { phase := .ended, sent := [.closed World.notRunning] }

/-- The last event, and out of the loop. -/
def close (t : TopicTask) (reason : String) : TopicTask :=
  { t with sent := t.sent ++ [.closed reason], phase := .ended }

/-- Translates one gossip event. The answer is `false` when the topic is
finished. -/
def report (t : TopicTask) : SwarmEvent → TopicTask × Bool
  | .neighborUp peer =>
    ({ t with neighbors := insert peer t.neighbors, sent := t.sent ++ [.neighborUp peer] }, t.held)
  | .neighborDown peer =>
    ({ t with neighbors := t.neighbors.erase peer, sent := t.sent ++ [.neighborDown peer] }, t.held)
  | .received content deliveredFrom direct =>
    ({ t with sent := t.sent ++ [.message content deliveredFrom direct] }, t.held)
  | .lagged => ({ t with sent := t.sent ++ [.lagged] }, false)

def step (t : TopicTask) : Act → Option TopicTask
  | .subscribed outcome =>
    if t.phase = .subscribing then
      match outcome with
      | .ok _ => some { t with phase := .looping }
      | .error reason => some (t.close reason)
    else none
  | .order command => if t.held then some { t with commands := t.commands ++ [command] } else none
  | .drop => some { t with held := false }
  | .command outcome =>
    if t.phase = .looping then
      match t.commands with
      | [] => if t.held then none else some { t with phase := .ended }
      | _ :: rest =>
        match outcome with
        | .ok _ => some { t with commands := rest }
        | .error reason => some (t.close reason)
    else none
  | .event item =>
    if t.phase = .looping then
      match item with
      | some (.ok event) => if (t.report event).2 then some (t.report event).1
          else some { (t.report event).1 with phase := .ended }
      | some (.error reason) => some (t.close reason)
      | none => some (t.close "topic closed")
    else none
  | .abandon => if t.phase = .ended then none else some { t with phase := .ended }

end TopicTask

/-! ## A document -/

/-- Where a document comes from. -/
inductive Source where
  | create
  | open (id : String)
  | join (ticket : String)

inductive DocumentCommand where
  | set (key value : Bytes)
  | delete (start : Bytes)
  | read (key : Bytes)
  | listKeys (start : Bytes)
  | status
  | share (writable : Bool)
  | join (peers : List String)
  | leave

/-- How the engine answered a command. -/
inductive DocumentAnswer where
  | failed (reason : String)
  /-- A write, a join or a leave went through. -/
  | done
  | value (data : Option Bytes)
  | keys (entries : List (Docs.KeyInfo String String))
  | status (syncing : Bool) (subscribers handles : UInt64)
  | shared (ticket : String)

/-- What the subscription to a document yields. -/
inductive LiveEvent where
  | insertLocal (key : Bytes) (author hash : String) (len : UInt64)
  | insertRemote (key : Bytes) (author hash : String) (len : UInt64) (sender : String)
  | contentReady (hash : String)
  | neighborUp (peer : String)
  | neighborDown (peer : String)
  | syncFinished (peer : String)
  | pendingContentReady

/-- What the task is waiting for. -/
inductive DocumentPhase where
  | engine
  | document
  | author
  | subscribing
  | store
  | looping
  /-- `doc.close()`. -/
  | closing
  | ended
deriving DecidableEq

structure DocumentTask where
  source : Source
  phase : DocumentPhase := .engine
  id : String := ""
  /-- Whom it writes as, once it has asked. -/
  author : String := ""
  commands : List DocumentCommand := []
  /-- The `Document` exists. -/
  held : Bool := true
  sent : List DocumentEvent := []

namespace DocumentTask

inductive Act where
  | engine (outcome : Except String Unit)
  /-- `open_doc`; only `api.open` can come back with nothing. -/
  | document (outcome : Except String (Option String))
  /-- `author_default`. -/
  | author (outcome : Except String String)
  | subscribed (outcome : Except String Unit)
  | store (outcome : Except String Unit)
  | order (command : DocumentCommand)
  | drop
  /-- The command arm, and what the engine answered. -/
  | command (answer : DocumentAnswer)
  /-- The other arm; `none` is the end of the stream. -/
  | update (item : Option (Except String LiveEvent))
  | closed
  | abandon

/-- `Library::spawn`, with the runtime running or not. -/
def spawn (source : Source) (running : Bool) : DocumentTask :=
  if running then { source } else { source, phase := .ended, sent := [.closed World.notRunning] }

def emit (t : DocumentTask) (e : DocumentEvent) : DocumentTask := { t with sent := t.sent ++ [e] }

/-- The early failures, which return. -/
def fail (t : DocumentTask) (reason : String) : DocumentTask := { t.emit (.closed reason) with phase := .ended }

/-- The failures in the loop, which break. -/
def close (t : DocumentTask) (reason : String) : DocumentTask := { t.emit (.closed reason) with phase := .closing }

/-- What `api.open` says when there is nothing. -/
def openDoc : Source → Except String (Option String) → Option (Except String String)
  | _, .error reason => some (.error reason)
  | _, .ok (some id) => some (.ok id)
  | .open _, .ok none => some (.error "no document with that id is in the store")
  | _, .ok none => none

/-- What a command comes to: an error, or the event sent, if any. -/
def apply : DocumentCommand → DocumentAnswer → Option (Except String (Option DocumentEvent))
  | _, .failed reason => some (.error reason)
  | .set .., .done | .delete _, .done | .join _, .done | .leave, .done => some (.ok none)
  | .read key, .value data => some (.ok (some (.value key data)))
  | .listKeys start, .keys entries => some (.ok (some (.keys start entries)))
  | .status, .status syncing subscribers handles =>
    some (.ok (some (.status syncing subscribers.toUInt32 handles.toUInt32)))
  | .share _, .shared ticket => some (.ok (some (.shared ticket)))
  | _, _ => none

/-- Translates one live event; one of them is not passed on. -/
def report : LiveEvent → Option DocumentEvent
  | .insertLocal key author hash len => some (.entry key author hash len none)
  | .insertRemote key author hash len sender => some (.entry key author hash len (some sender))
  | .contentReady hash => some (.contentReady hash)
  | .neighborUp peer => some (.neighborUp peer)
  | .neighborDown peer => some (.neighborDown peer)
  | .syncFinished peer => some (.syncFinished peer)
  | .pendingContentReady => none

def step (t : DocumentTask) : Act → Option DocumentTask
  | .engine outcome =>
    if t.phase = .engine then
      match outcome with
      | .ok _ => some { t with phase := .document }
      | .error reason => some (t.fail reason)
    else none
  | .document outcome =>
    if t.phase = .document then
      (openDoc t.source outcome).map fun
        | .ok id => { t with phase := .author, id := id }
        | .error reason => t.fail reason
    else none
  | .author outcome =>
    if t.phase = .author then
      match outcome with
      | .ok author => some { t with phase := .subscribing, author := author }
      | .error reason => some (t.fail reason)
    else none
  | .subscribed outcome =>
    if t.phase = .subscribing then
      match outcome with
      | .ok _ => some { t.emit (.opened t.id) with phase := .store }
      | .error reason => some (t.fail reason)
    else none
  | .store outcome =>
    if t.phase = .store then
      match outcome with
      | .ok _ => some { t with phase := .looping }
      | .error reason => some (t.fail reason)
    else none
  | .order command => if t.held then some { t with commands := t.commands ++ [command] } else none
  | .drop => some { t with held := false }
  | .command answer =>
    if t.phase = .looping then
      match t.commands with
      | [] => if t.held then none else some { t with phase := .closing }
      | command :: rest =>
        (apply command answer).map fun
          | .ok none => { t with commands := rest }
          | .ok (some e) => { t.emit e with commands := rest }
          | .error reason => t.close reason
    else none
  | .update item =>
    if t.phase = .looping then
      match item with
      | some (.ok event) =>
        match report event with
        | none => some t
        -- `events.send` fails once the handle is dropped.
        | some e => if t.held then some (t.emit e) else some { t.emit e with phase := .closing }
      | some (.error reason) => some (t.close reason)
      | none => some (t.close "document closed")
    else none
  | .closed => if t.phase = .closing then some { t with phase := .ended } else none
  | .abandon => if t.phase = .ended then none else some { t with phase := .ended }

/-- Before `Opened`. -/
def early (t : DocumentTask) : Bool :=
  match t.phase with
  | .engine | .document | .author | .subscribing => true
  | _ => false

/-- Every step, by what it changes. -/
inductive Stepped (t : DocumentTask) : Act → DocumentTask → Prop
  | failed {a} (hphase : t.early = true ∨ t.phase = .store) (reason : String) : Stepped t a (t.fail reason)
  | engine (hphase : t.phase = .engine) : Stepped t (.engine (.ok ())) { t with phase := .document }
  | document {o} (hphase : t.phase = .document) (id : String) :
      Stepped t (.document o) { t with phase := .author, id := id }
  | author (hphase : t.phase = .author) (author : String) :
      Stepped t (.author (.ok author)) { t with phase := .subscribing, author := author }
  | opened (hphase : t.phase = .subscribing) :
      Stepped t (.subscribed (.ok ())) { t.emit (.opened t.id) with phase := .store }
  | store (hphase : t.phase = .store) : Stepped t (.store (.ok ())) { t with phase := .looping }
  | order (command : DocumentCommand) : Stepped t (.order command) { t with commands := t.commands ++ [command] }
  | drop : Stepped t .drop { t with held := false }
  | left {answer} (hphase : t.phase = .looping) : Stepped t (.command answer) { t with phase := .closing }
  | done {command rest answer} (hphase : t.phase = .looping) (hcommands : t.commands = command :: rest)
      (happly : apply command answer = some (.ok none)) : Stepped t (.command answer) { t with commands := rest }
  | answered {command rest answer} (e : DocumentEvent) (hphase : t.phase = .looping)
      (hcommands : t.commands = command :: rest) (happly : apply command answer = some (.ok (some e))) :
      Stepped t (.command answer) { t.emit e with commands := rest }
  | closed {a} (hphase : t.phase = .looping) (reason : String) : Stepped t a (t.close reason)
  | pending (hphase : t.phase = .looping) : Stepped t (.update (some (.ok .pendingContentReady))) t
  | reported {event e} (hphase : t.phase = .looping) (he : report event = some e) :
      Stepped t (.update (some (.ok event))) (t.emit e)
  | unheard {event e} (hphase : t.phase = .looping) (he : report event = some e) :
      Stepped t (.update (some (.ok event))) { t.emit e with phase := .closing }
  | finished (hphase : t.phase = .closing) : Stepped t .closed { t with phase := .ended }
  | abandoned (hphase : t.phase ≠ .ended) : Stepped t .abandon { t with phase := .ended }

theorem step_cases {t t' : DocumentTask} {a : Act} (hs : t.step a = some t') : Stepped t a t' := by
  cases a with
  | engine outcome =>
    simp only [step] at hs
    split at hs
    next hphase =>
      cases outcome with
      | ok _ =>
        obtain rfl := Option.some.inj hs
        exact .engine hphase
      | error reason =>
        obtain rfl := Option.some.inj hs
        exact .failed (.inl (by simp [early, hphase])) reason
    · simp at hs
  | document outcome =>
    simp only [step] at hs
    split at hs
    next hphase =>
      obtain ⟨result, -, rfl⟩ := Option.map_eq_some_iff.1 hs
      cases result with
      | ok id => exact .document hphase id
      | error reason => exact .failed (.inl (by simp [early, hphase])) reason
    · simp at hs
  | author outcome =>
    simp only [step] at hs
    split at hs
    next hphase =>
      cases outcome with
      | ok author =>
        obtain rfl := Option.some.inj hs
        exact .author hphase author
      | error reason =>
        obtain rfl := Option.some.inj hs
        exact .failed (.inl (by simp [early, hphase])) reason
    · simp at hs
  | subscribed outcome =>
    simp only [step] at hs
    split at hs
    next hphase =>
      cases outcome with
      | ok _ =>
        obtain rfl := Option.some.inj hs
        exact .opened hphase
      | error reason =>
        obtain rfl := Option.some.inj hs
        exact .failed (.inl (by simp [early, hphase])) reason
    · simp at hs
  | store outcome =>
    simp only [step] at hs
    split at hs
    next hphase =>
      cases outcome with
      | ok _ =>
        obtain rfl := Option.some.inj hs
        exact .store hphase
      | error reason =>
        obtain rfl := Option.some.inj hs
        exact .failed (.inr hphase) reason
    · simp at hs
  | order command =>
    simp only [step] at hs
    split at hs
    · obtain rfl := Option.some.inj hs
      exact .order command
    · simp at hs
  | drop =>
    obtain rfl := Option.some.inj hs
    exact .drop
  | command answer =>
    simp only [step] at hs
    split at hs
    next hphase =>
      split at hs
      · split at hs
        · simp at hs
        · obtain rfl := Option.some.inj hs
          exact .left hphase
      next command rest hcommands =>
        obtain ⟨result, happly, rfl⟩ := Option.map_eq_some_iff.1 hs
        rcases result with reason | (_ | e)
        · exact .closed hphase reason
        · exact .done hphase hcommands happly
        · exact .answered e hphase hcommands happly
    · simp at hs
  | update item =>
    simp only [step] at hs
    split at hs
    next hphase =>
      split at hs
      next event =>
        split at hs
        next hnone =>
          obtain rfl := Option.some.inj hs
          cases event with
          | pendingContentReady => exact .pending hphase
          | _ => simp [report] at hnone
        next e he =>
          split at hs
          · obtain rfl := Option.some.inj hs
            exact .reported hphase he
          · obtain rfl := Option.some.inj hs
            exact .unheard hphase he
      next reason =>
        obtain rfl := Option.some.inj hs
        exact .closed hphase reason
      · obtain rfl := Option.some.inj hs
        exact .closed hphase _
    · simp at hs
  | closed =>
    simp only [step] at hs
    split at hs
    next hphase =>
      obtain rfl := Option.some.inj hs
      exact .finished hphase
    · simp at hs
  | abandon =>
    simp only [step] at hs
    split at hs
    · simp at hs
    next hphase =>
      obtain rfl := Option.some.inj hs
      exact .abandoned hphase

end DocumentTask

/-! ## A blob operation -/

/-- The operations. An export's path and a fetch's providers are the store's
business. -/
inductive Work where
  | add (tag : Option String)
  | fetch (hash : String) (tag : Option String)
  | exportBlob (hash : String)
  | read (hash : String)

/-- What the store's progress streams yield, of what the task looks at. -/
inductive ProgressItem where
  | size (size : UInt64)
  | copyProgress (done : UInt64)
  | progress (done : UInt64)
  | done (hash : String)
  | error (reason : String)
  | downloadError
  | other

/-- What the task is waiting for. -/
inductive TransferPhase where
  | opening
  /-- A download is to start. -/
  | starting
  /-- The stream; an add may have named its blob. -/
  | streaming (found : Option String)
  /-- The blob is to be tagged. -/
  | keeping (hash : String)
  | reading (hash : String)
  /-- The task ran to its end. -/
  | done
  /-- The runtime stopped before. -/
  | abandoned
deriving DecidableEq

structure TransferTask where
  work : Work
  phase : TransferPhase := .opening
  sent : List TransferEvent := []

namespace TransferTask

inductive Act where
  | opened (outcome : Except String Unit)
  | started (outcome : Except String Unit)
  /-- The next item; `none` is the end of the stream. -/
  | item (item : Option ProgressItem)
  | kept (outcome : Except String Unit)
  | read (outcome : Except String Bytes)
  | abandon

def emit (t : TransferTask) (e : TransferEvent) : TransferTask := { t with sent := t.sent ++ [e] }

def complete (t : TransferTask) (hash : String) (data : Bytes) : TransferTask :=
  { t.emit (.done hash data) with phase := .done }

def fail (t : TransferTask) (reason : String) : TransferTask := { t.emit (.failed reason) with phase := .done }

/-- A blob operation, with the runtime running or not. -/
def spawn (work : Work) (running : Bool) : TransferTask :=
  if running then { work } else { work, phase := .done, sent := [.failed World.notRunning] }

/-- Gives a blob a name, if one was asked for. -/
def keep (t : TransferTask) (hash : String) : Option String → TransferTask
  | none => t.complete hash []
  | some _ => { t with phase := .keeping hash }

/-- `forward_add`, and what comes after it. -/
def forwardAdd (t : TransferTask) (tag found : Option String) : Option ProgressItem → TransferTask
  | some (.size size) => t.emit (.size size)
  | some (.copyProgress done) => t.emit (.progress done)
  | some (.done hash) => { t with phase := .streaming (some hash) }
  | some (.error reason) => t.fail reason
  | some _ => t
  | none =>
    match found with
    | some hash => t.keep hash tag
    | none => t.fail "the store never reported a hash"

/-- The loop of `fetch`, and what comes after it. -/
def download (t : TransferTask) (hash : String) (tag : Option String) : Option ProgressItem → TransferTask
  | some (.progress done) => t.emit (.progress done)
  | some (.error reason) => t.fail reason
  | some .downloadError => t.fail "the download failed"
  | some _ => t
  | none => t.keep hash tag

/-- The loop of `export`, and what comes after it. -/
def exportBlob (t : TransferTask) (hash : String) : Option ProgressItem → TransferTask
  | some (.size size) => t.emit (.size size)
  | some (.copyProgress done) => t.emit (.progress done)
  | some (.error reason) => t.fail reason
  | some _ => t
  | none => t.complete hash []

def step (t : TransferTask) : Act → Option TransferTask
  | .opened outcome =>
    if t.phase = .opening then
      match outcome with
      | .error reason => some (t.fail reason)
      | .ok _ =>
        match t.work with
        | .add _ | .exportBlob _ => some { t with phase := .streaming none }
        | .fetch .. => some { t with phase := .starting }
        | .read hash => some { t with phase := .reading hash }
    else none
  | .started outcome =>
    if t.phase = .starting then
      match outcome with
      | .error reason => some (t.fail reason)
      | .ok _ => some { t with phase := .streaming none }
    else none
  | .item item =>
    match t.phase with
    | .streaming found =>
      match t.work with
      | .add tag => some (t.forwardAdd tag found item)
      | .fetch hash tag => some (t.download hash tag item)
      | .exportBlob hash => some (t.exportBlob hash item)
      | .read _ => none
    | _ => none
  | .kept outcome =>
    match t.phase with
    | .keeping hash =>
      match outcome with
      | .ok _ => some (t.complete hash [])
      | .error reason => some (t.fail ("stored, but could not tag it: " ++ reason))
    | _ => none
  | .read outcome =>
    match t.phase with
    | .reading hash =>
      match outcome with
      | .ok data => some (t.complete hash data)
      | .error reason => some (t.fail reason)
    | _ => none
  | .abandon => if t.phase = .done ∨ t.phase = .abandoned then none else some { t with phase := .abandoned }

end TransferTask
end Gdiroh.Endpoint
