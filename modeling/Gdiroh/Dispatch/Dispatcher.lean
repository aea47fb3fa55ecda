/-
The accept loop's dispatcher (`dispatch.rs`): which protocol holds an ALPN,
and where an inbound connection goes.

A `Registration` is kept by its place in `registrations`, and so is what
stands for it in the registry: the sender half and the refuse flag are shared
with it. Each step is one locked section or one call made outside the lock;
steps of different threads come in any order. A `HashMap` yields its keys in
no fixed order, so the snapshot in `publish_alpns` takes it as an argument.

What QUIC does is an argument too: whether an offer can be read, and what the
two sides settle on.
-/
import Mathlib.Data.List.AList

namespace Gdiroh.Dispatch

abbrev Alpn := List UInt8

/-- Close code for a connection whose ALPN nobody claimed. -/
def noListener : UInt32 := 1

/-- Close code for a protocol that is up but turning connections away. -/
def refused : UInt32 := 2

/-- A claim on one ALPN, plus the connections arriving for it. -/
structure Registration where
  alpn : Alpn
  refuse : Bool := false
  /-- Between the locked insertion and the locked removal of its `Claim`. -/
  live : Bool := true
  /-- The receiving half still exists. -/
  receiving : Bool := true
  /-- The call of `register` that made it, by its place in `changes`. -/
  opened : Nat
deriving DecidableEq

/-- How far a `register` or a `Claim::drop` is, once it has changed the
registry. -/
inductive Change where
  | made
  /-- `publish_alpns` has read the keys. `time` counts the readings. -/
  | read (alpns : List Alpn) (time : Nat)
  | finished
deriving DecidableEq

/-- Where an inbound connection is. -/
inductive Routing where
  /-- In `offers_wanted_alpn`, the ALPNs it has looked at and those to come;
  one that is no ALPN is `none`. -/
  | offered (passed rest : List (Option Alpn))
  /-- Refused by the accept loop, before the handshake. -/
  | turnedAway (offer : List (Option Alpn))
  /-- In `dispatch`, before the end of the handshake. -/
  | accepting
  /-- Connected, on this ALPN. -/
  | connected (alpn : Alpn)
  /-- The sender of a registration is cloned. -/
  | routed (registration : Nat)
  | closed (code : UInt32) (reason : String)
  /-- Sent to a receiver, or dropped for want of one, or never connected. -/
  | over
deriving DecidableEq

structure Dispatcher where
  /-- The registry: each claimed ALPN with the registration that claimed it. -/
  protocols : AList fun _ : Alpn => Nat := ∅
  registrations : List Registration := []
  changes : List Change := []
  /-- How often the keys have been read to be published. -/
  readings : Nat := 0
  /-- The list last passed to `Endpoint::set_alpns`, and the reading it is. -/
  published : List Alpn := []
  publishedAt : Nat := 0
  arrivals : List Routing := []
  /-- Every connection sent to a receiver, with its registration. -/
  sent : List (Nat × Nat) := []

/-- What the locked lookup in `dispatch` comes to. -/
inductive Route where
  | deliver (registration : Nat)
  | close (code : UInt32) (reason : String)
deriving DecidableEq

/-- What the lookup makes of a connection. -/
def Routing.ofRoute : Route → Routing
  | .deliver r => .routed r
  | .close code reason => .closed code reason

inductive Act where
  /-- The locked section of `register`. -/
  | register (alpn : Alpn)
  /-- The locked section of `Claim::drop`. -/
  | release (registration : Nat)
  /-- The locked section of `publish_alpns`, within a change. -/
  | keys (change : Nat) (alpns : List Alpn)
  /-- `set_alpns` with what was read. -/
  | setAlpns (change : Nat)
  /-- An owner stores its refuse flag. -/
  | refuse (registration : Nat) (refuse : Bool)
  /-- A receiving half is dropped. -/
  | hangUp (registration : Nat)
  /-- The accept loop takes a connection; its offer is `none` when it cannot
  be read. -/
  | accept (offer : Option (List (Option Alpn)))
  /-- `offers_wanted_alpn` looks at one ALPN, or comes to its end. -/
  | check (arrival : Nat)
  /-- The handshake fails. -/
  | fail (arrival : Nat)
  /-- The handshake ends, on this ALPN. -/
  | connect (arrival : Nat) (alpn : Alpn)
  /-- The locked section of `dispatch`. -/
  | lookup (arrival : Nat)
  /-- The send that follows it. -/
  | send (arrival : Nat)

namespace Dispatcher

/-- The flag of a registration. -/
def refuses (d : Dispatcher) (registration : Nat) : Bool :=
  (d.registrations[registration]?.map (·.refuse)).getD false

/-- Whether `alpn` is claimed by a protocol that is currently accepting. -/
def wanted (d : Dispatcher) (alpn : Alpn) : Bool :=
  (d.protocols.lookup alpn).any fun r => !d.refuses r

/-- Whether an offer has an ALPN some protocol is ready to take; `none` when
the offer could not be read. -/
def offersWantedAlpn (d : Dispatcher) (offer : Option (List (Option Alpn))) : Option Bool :=
  offer.map fun alpns => alpns.any fun alpn => alpn.any d.wanted

/-- The locked lookup of `dispatch`. -/
def route (d : Dispatcher) (alpn : Alpn) : Route :=
  match d.protocols.lookup alpn with
  | some r => if d.refuses r then .close refused "not accepting connections" else .deliver r
  | none => .close noListener "no listener for that protocol"

def setRegistration (d : Dispatcher) (r : Nat) (registration : Registration) : Dispatcher :=
  { d with registrations := d.registrations.set r registration }

def setChange (d : Dispatcher) (t : Nat) (change : Change) : Dispatcher :=
  { d with changes := d.changes.set t change }

def setArrival (d : Dispatcher) (i : Nat) (routing : Routing) : Dispatcher :=
  { d with arrivals := d.arrivals.set i routing }

/-- The locked section of `register`, which returns `None` when something
already holds the ALPN. -/
def register (d : Dispatcher) (alpn : Alpn) : Dispatcher :=
  if alpn ∈ d.protocols then d
  else { d with
    protocols := d.protocols.insert alpn d.registrations.length
    registrations := d.registrations ++ [{ alpn := alpn, opened := d.changes.length }]
    changes := d.changes ++ [.made] }

/-- The locked section of `Claim::drop`. -/
def release (d : Dispatcher) (r : Nat) (registration : Registration) : Dispatcher :=
  { d.setRegistration r { registration with live := false } with
    protocols := d.protocols.erase registration.alpn
    changes := d.changes ++ [.made] }

/-- A connection is sent to its receiver, or dropped. -/
def send (d : Dispatcher) (i r : Nat) : Dispatcher :=
  let d := d.setArrival i .over
  if d.registrations[r]?.any (·.receiving) then { d with sent := d.sent ++ [(i, r)] } else d

def step (d : Dispatcher) : Act → Option Dispatcher
  | .register alpn => some (d.register alpn)
  | .release r =>
    match d.registrations[r]? with
    | none => none
    | some registration =>
      -- `register` returns the claim, so it is over; a claim is dropped once.
      if registration.live ∧ d.changes[registration.opened]? = some .finished then
        some (d.release r registration)
      else none
  | .keys t alpns =>
    if d.changes[t]? = some .made ∧ alpns.Perm d.protocols.keys then
      some { d.setChange t (.read alpns (d.readings + 1)) with readings := d.readings + 1 }
    else none
  | .setAlpns t =>
    match d.changes[t]? with
    | some (.read alpns time) =>
      some { d.setChange t .finished with published := alpns, publishedAt := time }
    | _ => none
  | .refuse r refuse =>
    d.registrations[r]?.map fun registration => d.setRegistration r { registration with refuse := refuse }
  | .hangUp r =>
    d.registrations[r]?.map fun registration => d.setRegistration r { registration with receiving := false }
  | .accept offer =>
    -- One connection at a time goes through the loop.
    if d.arrivals.any fun | .offered .. => true | _ => false then none
    else some { d with arrivals := d.arrivals ++ [match offer with
      | some alpns => .offered [] alpns
      | none => .accepting] }
  | .check i =>
    match d.arrivals[i]? with
    | some (.offered passed (alpn :: rest)) =>
      if alpn.any d.wanted then some (d.setArrival i .accepting)
      else some (d.setArrival i (.offered (passed ++ [alpn]) rest))
    | some (.offered passed []) => some (d.setArrival i (.turnedAway passed))
    | _ => none
  | .fail i =>
    match d.arrivals[i]? with
    | some .accepting => some (d.setArrival i .over)
    | _ => none
  | .connect i alpn =>
    match d.arrivals[i]? with
    | some .accepting => some (d.setArrival i (.connected alpn))
    | _ => none
  | .lookup i =>
    match d.arrivals[i]? with
    | some (.connected alpn) => some (d.setArrival i (.ofRoute (d.route alpn)))
    | _ => none
  | .send i =>
    match d.arrivals[i]? with
    | some (.routed r) => some (d.send i r)
    | _ => none

end Dispatcher
end Gdiroh.Dispatch
