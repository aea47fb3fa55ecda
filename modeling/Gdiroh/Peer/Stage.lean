/-
Peers that host on one endpoint: the calls the main thread makes on them
(`peer.rs`), the sessions these start (`session.rs`), and the dispatcher that
routes connections to the sessions.

A session's claim on the ALPN is inside its task, so it goes when the task
comes to `drop(inbound)`, or when the runtime drops the task where it waits.
The main thread makes one call at a time; a call that touches what other
threads see is cut where they can come in between. `host` is cut into the
locked section of `register`, its `publish_alpns`, the spawn, and the store of
the refuse flag.

Of a session's events only `Closed` is kept, and which connections it
welcomed, since a `PeerConnected` comes from nothing else on a host.
-/
import Gdiroh.Dispatch.Routing
import Gdiroh.Endpoint.Listening
import Gdiroh.Session.State

namespace Gdiroh

open Dispatch Endpoint Session

/-- How far a session is. `last` is the `Closed` it has yet to send, if any. -/
inductive Phase where
  /-- In `Session::start`, before the spawn. -/
  | starting
  /-- Its task is in the loop. -/
  | looping
  /-- Out of the loop, or dropped with the runtime, or never spawned. -/
  | leaving (last : Option String)
  /-- `Claim::drop` has removed the ALPN and is to publish what is left. -/
  | releasing (last : Option String) (change : Nat)
  /-- The receiver of connections is dropped too. -/
  | hungUp (last : Option String)
  | ended
deriving DecidableEq

/-- The claim is still held. -/
def Phase.holds : Phase → Bool
  | .starting | .looping | .leaving _ => true
  | _ => false

/-- The reasons a hosting session ends for. -/
def alreadyHosting : String := "this endpoint is already hosting"

def sessionClosed : String := "session closed"

/-- A session started by `host`, and its task. -/
structure Hosted where
  /-- The peer that started it. -/
  peer : Nat
  /-- `none` if the ALPN was taken. -/
  registration : Option Nat
  phase : Phase
  commands : List Command := []
  /-- The `Session` exists, and with it the sender of its commands. -/
  held : Bool := true
  /-- The connections welcomed. -/
  welcomed : List Nat := []
  /-- The `Closed` that was sent. -/
  closed : Option String := none
  /-- `IrohPeer::close` was called on it and has returned. -/
  told : Bool := false
  /-- Its `Closed` was received. -/
  observed : Bool := false
deriving DecidableEq

/-- What `IrohPeer` has to do with hosting. -/
structure HostPeer where
  session : Option Nat := none
  refuseNewConnections : Bool := false
deriving DecidableEq

/-- Where the main thread is. -/
inductive Main where
  | idle
  /-- In `host`, up to the spawn. -/
  | registering (peer session : Nat)
  /-- In `host`, the task dropped for want of a runtime. -/
  | failing (peer session : Nat)
  /-- In `host`, before the store of the refuse flag. -/
  | storing (peer session : Nat)
  /-- In `set_refuse_new_connections`, before the store of the refuse flag.
  `before` is what the field was. -/
  | setting (peer : Nat) (before : Bool)
deriving DecidableEq

structure Stage where
  dispatcher : Dispatcher := {}
  sessions : List Hosted := []
  peers : Nat → HostPeer := fun _ => {}
  main : Main := .idle

namespace Stage

inductive Action where
  /-- `IrohPeer::host`, up to and with the locked section of `register`. -/
  | host (peer : Nat)
  /-- `detach`, with the runtime running or not. -/
  | spawn (running : Bool)
  /-- The rest of `host`. -/
  | store
  /-- `IrohPeer::close`. -/
  | close (peer : Nat)
  /-- `IrohPeer::poll`. -/
  | poll (peer : Nat)
  /-- The peer goes, or takes up another session elsewhere. -/
  | leave (peer : Nat)
  /-- A packet is put, or a peer disconnected. -/
  | command (peer : Nat) (command : Command)
  /-- `set_refuse_new_connections`, up to its field. -/
  | setRefuse (peer : Nat) (refuse : Bool)
  /-- The rest of it. -/
  | storeRefuse
  /-- The command arm of a session's task. -/
  | turn (session : Nat)
  /-- The accept arm of a session's task. -/
  | accept (session : Nat)
  /-- The runtime stops and drops the task where it waits. -/
  | abandon (session : Nat)
  /-- The locked section of `Claim::drop`. -/
  | release (session : Nat)
  /-- The receiver is dropped after the claim. -/
  | hangUp (session : Nat)
  /-- The last event. -/
  | report (session : Nat)
  /-- Any other step of the dispatcher. -/
  | other (act : Act)

def setSession (w : Stage) (s : Nat) (x : Hosted) : Stage := { w with sessions := w.sessions.set s x }

def setPeer (w : Stage) (p : Nat) (peer : HostPeer) : Stage := { w with peers := Function.update w.peers p peer }

/-- The connections sent to a registration, oldest first. -/
def arrived (w : Stage) (r : Nat) : List Nat := (w.dispatcher.sent.filter fun sent => sent.2 = r).map (·.1)

/-- A registration that no session has. -/
def foreign (w : Stage) (r : Nat) : Bool := w.sessions.all fun x => x.registration ≠ some r

/-- The step is not one of the sessions' own. -/
def others (w : Stage) : Act → Bool
  | .release r | .refuse r _ | .hangUp r => w.foreign r
  | _ => true

/-- The session a peer has is dropped without a word. -/
def letGo (w : Stage) (p : Nat) : Stage :=
  match (w.peers p).session with
  | none => w
  | some s =>
    match w.sessions[s]? with
    | none => w
    | some x => w.setSession s { x with held := false }

/-- `self.session = session`, which drops the one before. -/
def assign (w : Stage) (p : Nat) (session : Option Nat) : Stage :=
  (w.letGo p).setPeer p { w.peers p with session := session }

/-- Starts a session as the host. -/
def host (w : Stage) (p : Nat) : Stage :=
  if sessionAlpn ∈ w.dispatcher.protocols then
    let w' : Stage := { w with sessions := w.sessions ++
      [{ peer := p, registration := none, phase := .ended, closed := some alreadyHosting }] }
    w'.assign p (some w.sessions.length)
  else { w with
    dispatcher := w.dispatcher.register sessionAlpn
    sessions := w.sessions ++
      [{ peer := p, registration := some w.dispatcher.registrations.length, phase := .starting }]
    main := .registering p w.sessions.length }

/-- The `register` that made a session's claim has returned. -/
def registered (w : Stage) (x : Hosted) : Bool :=
  match x.registration.bind fun r => w.dispatcher.registrations[r]? with
  | none => false
  | some g => w.dispatcher.changes[g.opened]? = some .finished

/-- The store of a refuse flag; the flag of a session without a registration
exists only to be stored into. -/
def storeFlag (w : Stage) (s : Nat) (refuse : Bool) : Option Stage :=
  match w.sessions[s]?.bind (·.registration) with
  | none => some w
  | some r => (w.dispatcher.step (.refuse r refuse)).map fun d => { w with dispatcher := d }

/-- The command arm. -/
def turn (w : Stage) (s : Nat) (x : Hosted) : Option Stage :=
  match x.commands with
  | .close :: _ => some (w.setSession s { x with phase := .leaving (some sessionClosed) })
  | _ :: rest => some (w.setSession s { x with commands := rest })
  | [] => if x.held then none else some (w.setSession s { x with phase := .leaving (some sessionClosed) })

def step (w : Stage) : Action → Option Stage
  | .host p => if w.main = .idle then some (w.host p) else none
  | .spawn running =>
    match w.main with
    | .registering p s =>
      match w.sessions[s]? with
      | none => none
      | some x =>
        if ¬ (x.phase = .starting ∧ w.registered x) then none
        else if running then some { w.setSession s { x with phase := .looping } with main := .storing p s }
        else some { w.setSession s { x with phase := .leaving (some World.notRunning) } with main := .failing p s }
    | _ => none
  | .store =>
    match w.main with
    | .storing p s =>
      (w.storeFlag s (w.peers p).refuseNewConnections).map fun w => { w.assign p (some s) with main := .idle }
    | .failing p s =>
      if w.sessions[s]?.map (·.phase) = some .ended then some { w with main := .storing p s } else none
    | _ => none
  | .close p =>
    if w.main = .idle then
      match (w.peers p).session with
      | none => some w
      | some s =>
        match w.sessions[s]? with
        | none => none
        | some x => some ((w.setSession s { x with commands := x.commands ++ [.close], told := true }).assign p none)
    else none
  | .poll p =>
    if w.main = .idle then
      match (w.peers p).session with
      | none => some w
      | some s =>
        match w.sessions[s]? with
        | none => none
        | some x =>
          if x.closed = none then some w else some ((w.setSession s { x with observed := true }).assign p none)
    else none
  | .leave p => if w.main = .idle then some (w.assign p none) else none
  | .command p command =>
    if w.main = .idle ∧ command ≠ .close then
      match (w.peers p).session with
      | none => some w
      | some s =>
        match w.sessions[s]? with
        | none => none
        | some x => some (w.setSession s { x with commands := x.commands ++ [command] })
    else none
  | .setRefuse p refuse =>
    if w.main = .idle then
      let w' := w.setPeer p { w.peers p with refuseNewConnections := refuse }
      if (w.peers p).session = none then some w'
      else some { w' with main := .setting p (w.peers p).refuseNewConnections }
    else none
  | .storeRefuse =>
    match w.main with
    | .setting p _ =>
      match (w.peers p).session with
      | none => none
      | some s => (w.storeFlag s (w.peers p).refuseNewConnections).map fun w => { w with main := .idle }
    | _ => none
  | .turn s =>
    match w.sessions[s]? with
    | none => none
    | some x => if x.phase = .looping then w.turn s x else none
  | .accept s =>
    match w.sessions[s]? with
    | none => none
    | some x =>
      if x.phase = .looping then
        -- A connection that waits in the receiver.
        (x.registration.bind fun r => (w.arrived r)[x.welcomed.length]?).map fun connection =>
          w.setSession s { x with welcomed := x.welcomed ++ [connection] }
      else none
  | .abandon s =>
    match w.sessions[s]? with
    | none => none
    | some x => if x.phase = .looping then some (w.setSession s { x with phase := .leaving none }) else none
  | .release s =>
    match w.sessions[s]? with
    | none => none
    | some x =>
      match x.phase, x.registration with
      | .leaving last, some r =>
        (w.dispatcher.step (.release r)).map fun d =>
          { w.setSession s { x with phase := .releasing last w.dispatcher.changes.length } with dispatcher := d }
      | _, _ => none
  | .hangUp s =>
    match w.sessions[s]? with
    | none => none
    | some x =>
      match x.phase, x.registration with
      | .releasing last change, some r =>
        -- `Claim::drop` has returned.
        if w.dispatcher.changes[change]? = some .finished then
          (w.dispatcher.step (.hangUp r)).map fun d =>
            { w.setSession s { x with phase := .hungUp last } with dispatcher := d }
        else none
      | _, _ => none
  | .report s =>
    match w.sessions[s]? with
    | none => none
    | some x =>
      match x.phase with
      | .hungUp last => some (w.setSession s { x with phase := .ended, closed := last })
      | _ => none
  | .other act =>
    if w.others act then (w.dispatcher.step act).map fun d => { w with dispatcher := d } else none

/-! ## What a step does -/

/-- Every step, by what it changes. -/
inductive Stepped (w : Stage) : Action → Stage → Prop
  | host {p} (hidle : w.main = .idle) : Stepped w (.host p) (w.host p)
  | spawned {p s x} (hmain : w.main = .registering p s) (hx : w.sessions[s]? = some x) (hphase : x.phase = .starting) :
      Stepped w (.spawn true) { w.setSession s { x with phase := .looping } with main := .storing p s }
  | unspawned {p s x} (hmain : w.main = .registering p s) (hx : w.sessions[s]? = some x)
      (hphase : x.phase = .starting) : Stepped w (.spawn false)
        { w.setSession s { x with phase := .leaving (some World.notRunning) } with main := .failing p s }
  | stored {p s w₁} (hmain : w.main = .storing p s)
      (hflag : w.storeFlag s (w.peers p).refuseNewConnections = some w₁) :
      Stepped w .store { w₁.assign p (some s) with main := .idle }
  | failed {p s} (hmain : w.main = .failing p s) : Stepped w .store { w with main := .storing p s }
  | idle {a} (hidle : w.main = .idle) : Stepped w a w
  | close {p s x} (hidle : w.main = .idle) (hp : (w.peers p).session = some s) (hx : w.sessions[s]? = some x) :
      Stepped w (.close p)
        ((w.setSession s { x with commands := x.commands ++ [.close], told := true }).assign p none)
  | poll {p s x} (hidle : w.main = .idle) (hp : (w.peers p).session = some s) (hx : w.sessions[s]? = some x)
      (hclosed : x.closed ≠ none) :
      Stepped w (.poll p) ((w.setSession s { x with observed := true }).assign p none)
  | leave {p} (hidle : w.main = .idle) : Stepped w (.leave p) (w.assign p none)
  | command {p c s x} (hx : w.sessions[s]? = some x) :
      Stepped w (.command p c) (w.setSession s { x with commands := x.commands ++ [c] })
  | setField {p refuse} (hidle : w.main = .idle) (hp : (w.peers p).session = none) :
      Stepped w (.setRefuse p refuse) (w.setPeer p { w.peers p with refuseNewConnections := refuse })
  | setting {p refuse s} (hidle : w.main = .idle) (hp : (w.peers p).session = some s) :
      Stepped w (.setRefuse p refuse) { w.setPeer p { w.peers p with refuseNewConnections := refuse } with
        main := .setting p (w.peers p).refuseNewConnections }
  | set {p before s w₁} (hmain : w.main = .setting p before) (hp : (w.peers p).session = some s)
      (hflag : w.storeFlag s (w.peers p).refuseNewConnections = some w₁) :
      Stepped w .storeRefuse { w₁ with main := .idle }
  | taken {s x rest} (hx : w.sessions[s]? = some x) :
      Stepped w (.turn s) (w.setSession s { x with commands := rest })
  | left {s x} (hx : w.sessions[s]? = some x) (hphase : x.phase = .looping) :
      Stepped w (.turn s) (w.setSession s { x with phase := .leaving (some sessionClosed) })
  | welcomed {s x r connection} (hx : w.sessions[s]? = some x) (hr : x.registration = some r)
      (hc : connection ∈ w.arrived r) :
      Stepped w (.accept s) (w.setSession s { x with welcomed := x.welcomed ++ [connection] })
  | abandoned {s x} (hx : w.sessions[s]? = some x) (hphase : x.phase = .looping) :
      Stepped w (.abandon s) (w.setSession s { x with phase := .leaving none })
  | released {s x r last d} (hx : w.sessions[s]? = some x) (hphase : x.phase = .leaving last)
      (hr : x.registration = some r) (hd : w.dispatcher.step (.release r) = some d) : Stepped w (.release s)
        { w.setSession s { x with phase := .releasing last w.dispatcher.changes.length } with dispatcher := d }
  | hungUp {s x r last change d} (hx : w.sessions[s]? = some x) (hphase : x.phase = .releasing last change)
      (hr : x.registration = some r) (hd : w.dispatcher.step (.hangUp r) = some d) :
      Stepped w (.hangUp s) { w.setSession s { x with phase := .hungUp last } with dispatcher := d }
  | reported {s x last} (hx : w.sessions[s]? = some x) (hphase : x.phase = .hungUp last) :
      Stepped w (.report s) (w.setSession s { x with phase := .ended, closed := last })
  | other {act d} (hothers : w.others act = true) (hd : w.dispatcher.step act = some d) :
      Stepped w (.other act) { w with dispatcher := d }

theorem step_cases {w w' : Stage} {a : Action} (h : w.step a = some w') : Stepped w a w' := by
  cases a with
  | host p =>
    simp only [step] at h
    split at h
    next hidle =>
      obtain rfl := Option.some.inj h
      exact .host hidle
    · simp at h
  | spawn running =>
    simp only [step] at h
    split at h
    next p s hmain =>
      split at h
      · simp at h
      next x hx =>
        split at h
        · simp at h
        next hg =>
          simp only [not_not] at hg
          cases running with
          | true =>
            obtain rfl := Option.some.inj h
            exact .spawned hmain hx hg.1
          | false =>
            obtain rfl := Option.some.inj h
            exact .unspawned hmain hx hg.1
    · simp at h
  | store =>
    simp only [step] at h
    split at h
    next p s hmain =>
      obtain ⟨w₁, hflag, rfl⟩ := Option.map_eq_some_iff.1 h
      exact .stored hmain hflag
    next p s hmain =>
      split at h
      · obtain rfl := Option.some.inj h
        exact .failed hmain
      · simp at h
    · simp at h
  | close p =>
    simp only [step] at h
    split at h
    next hidle =>
      split at h
      · obtain rfl := Option.some.inj h
        exact .idle hidle
      next s hp =>
        split at h
        · simp at h
        next x hx =>
          obtain rfl := Option.some.inj h
          exact .close hidle hp hx
    · simp at h
  | poll p =>
    simp only [step] at h
    split at h
    next hidle =>
      split at h
      · obtain rfl := Option.some.inj h
        exact .idle hidle
      next s hp =>
        split at h
        · simp at h
        next x hx =>
          split at h
          · obtain rfl := Option.some.inj h
            exact .idle hidle
          next hclosed =>
            obtain rfl := Option.some.inj h
            exact .poll hidle hp hx hclosed
    · simp at h
  | leave p =>
    simp only [step] at h
    split at h
    next hidle =>
      obtain rfl := Option.some.inj h
      exact .leave hidle
    · simp at h
  | command p c =>
    simp only [step] at h
    split at h
    next hg =>
      split at h
      · obtain rfl := Option.some.inj h
        exact .idle hg.1
      next s hp =>
        split at h
        · simp at h
        next x hx =>
          obtain rfl := Option.some.inj h
          exact .command hx
    · simp at h
  | setRefuse p refuse =>
    simp only [step] at h
    split at h
    next hidle =>
      split at h
      next hp =>
        obtain rfl := Option.some.inj h
        exact .setField hidle hp
      next hp =>
        obtain rfl := Option.some.inj h
        obtain ⟨s, hs⟩ := Option.ne_none_iff_exists'.1 hp
        exact .setting hidle hs
    · simp at h
  | storeRefuse =>
    simp only [step] at h
    split at h
    next p before hmain =>
      split at h
      · simp at h
      next s hp =>
        obtain ⟨w₁, hflag, rfl⟩ := Option.map_eq_some_iff.1 h
        exact .set hmain hp hflag
    · simp at h
  | turn s =>
    simp only [step] at h
    split at h
    · simp at h
    next x hx =>
      split at h
      next hphase =>
        unfold turn at h
        split at h
        · obtain rfl := Option.some.inj h
          exact .left hx hphase
        · obtain rfl := Option.some.inj h
          exact .taken hx
        · split at h
          · simp at h
          · obtain rfl := Option.some.inj h
            exact .left hx hphase
      · simp at h
  | accept s =>
    simp only [step] at h
    split at h
    · simp at h
    next x hx =>
      split at h
      next hphase =>
        obtain ⟨connection, hc, rfl⟩ := Option.map_eq_some_iff.1 h
        obtain ⟨r, hr, hc⟩ := Option.bind_eq_some_iff.1 hc
        exact .welcomed hx hr (List.mem_of_getElem? hc)
      · simp at h
  | abandon s =>
    simp only [step] at h
    split at h
    · simp at h
    next x hx =>
      split at h
      next hphase =>
        obtain rfl := Option.some.inj h
        exact .abandoned hx hphase
      · simp at h
  | release s =>
    simp only [step] at h
    split at h
    · simp at h
    next x hx =>
      split at h
      next last r hphase hr =>
        obtain ⟨d, hd, rfl⟩ := Option.map_eq_some_iff.1 h
        exact .released hx hphase hr hd
      · simp at h
  | hangUp s =>
    simp only [step] at h
    split at h
    · simp at h
    next x hx =>
      split at h
      next last change r hphase hr =>
        split at h
        · obtain ⟨d, hd, rfl⟩ := Option.map_eq_some_iff.1 h
          exact .hungUp hx hphase hr hd
        · simp at h
      · simp at h
  | report s =>
    simp only [step] at h
    split at h
    · simp at h
    next x hx =>
      split at h
      next last hphase =>
        obtain rfl := Option.some.inj h
        exact .reported hx hphase
      · simp at h
  | other act =>
    simp only [step] at h
    split at h
    next hothers =>
      obtain ⟨d, hd, rfl⟩ := Option.map_eq_some_iff.1 h
      exact .other hothers hd
    · simp at h

end Stage
end Gdiroh
