/-
Who holds the claims on an endpoint's dispatcher (`endpoint.rs`, `dispatch.rs`).
Script claims the protocols it listens for; the blob store, gossip and the
document engine claim one each when they are started (`blobs.rs`, `gossip.rs`,
`docs.rs`); and a session that hosts claims its own (`session.rs`). A claim
goes with whatever holds it. When the endpoint is closed it lets its dispatcher
go, but a session holds on to the one it was given, so it may still be there
when the endpoint is bound anew.

The ALPNs of the three services are those of the crates they come from.
Whether the runtime runs is up to each call.
-/
import Gdiroh.Endpoint.Listening

namespace Gdiroh.Endpoint

open Polled Dispatch

/-- `iroh_blobs::ALPN`, `iroh_gossip::ALPN` and `iroh_docs::ALPN`. -/
structure Services where
  blobs : Alpn
  gossip : Alpn
  docs : Alpn

/-- No two are the same, and none is a session's. -/
def Services.Apart (p : Services) : Prop := [p.blobs, p.gossip, p.docs, sessionAlpn].Nodup

instance (p : Services) : Decidable p.Apart := inferInstanceAs (Decidable (List.Nodup _))

namespace Listening

/-- `Depot::start`, `Swarm::start` and `Library::start`, and a session that
hosts: the ALPN is claimed, and a task started that takes the connections. -/
def startService (alpn : Alpn) (running : Bool) (registry : List Alpn) : Bool × List Alpn :=
  if registry.contains alpn then (false, registry)
  else if running then (true, alpn :: registry)
  -- The claim is dropped with the task that was not started.
  else (false, (alpn :: registry).erase alpn)

section
variable (p : Services) (running : Bool) (e : Listening)

/-- The blob store, started on first use. -/
def useDepot : Listening :=
  if e.depot.isNone ∧ e.bound then
    let (started, registry) := startService p.blobs running e.registry
    { e with registry := registry, depot := if started then some ⟨e.path⟩ else none }
  else e

/-- The gossip swarm, started on first use. -/
def useSwarm : Listening :=
  if e.swarm = false ∧ e.bound then
    let (started, registry) := startService p.gossip running e.registry
    { e with registry := registry, swarm := started }
  else e

/-- The document engine, started on first use; the blob store and gossip come
up first. -/
def useLibrary : Listening :=
  if e.library.isNone ∧ e.bound then
    let e := e.useDepot p running
    match e.depot with
    | none => e
    | some store =>
      let e := e.useSwarm p running
      if e.swarm then
        let (started, registry) := startService p.docs running e.registry
        { e with registry := registry, library := if started then some ⟨store, e.path⟩ else none }
      else e
  else e

/-- A request that is not refused before it comes to a store. -/
def Request.wellFormed (parse : Parse) : Request → Bool
  | .blobStatus hash => parse.hash hash
  | .tag hash name => parse.hash hash && (optional name).isSome
  | .untag name => (optional name).isSome
  | .dropDocument id => parse.id id
  | .setDefaultAuthor author => parse.author author
  | .blobList | .tagList | .documentList | .authorList | .createAuthor => true

/-- The question is for the document engine. -/
def Request.documents : Request → Bool
  | .documentList | .dropDocument _ | .authorList | .createAuthor | .setDefaultAuthor _ => true
  | .blobStatus _ | .blobList | .tag _ _ | .untag _ | .tagList => false

/-- Puts a question to a store, which is started first; `request` finds
nothing left to start. -/
def useRequest (tree : Bool) (parse : Parse) (r : Request) : Bool × Listening :=
  let e := if r.wellFormed parse then if r.documents then e.useLibrary p running else e.useDepot p running else e
  e.request tree parse { starts := ⟨false, false, false⟩, running } r

/-- The protocols of the services that run. -/
def services : List Alpn :=
  (if e.depot.isSome then [p.blobs] else []) ++ (if e.swarm then [p.gossip] else []) ++
    if e.library.isSome then [p.docs] else []

/-- Who holds what, with a session hosting or not. -/
def owned (hosting : Bool) : List Alpn :=
  e.listeners.keys ++ e.services p ++ if hosting then [sessionAlpn] else []

end
end Listening

/-- An endpoint, and the sessions that host on it. -/
structure Owners extends Listened where
  /-- How often the endpoint has let go of a dispatcher. -/
  closes : Nat := 0
  /-- The sessions that have their claim, each by the dispatcher it is on. -/
  hosts : List Nat := []

namespace Owners

inductive Action where
  /-- A call that starts no store, or a step of a task. -/
  | own (a : Listened.Action)
  /-- Any blob operation, any use of gossip, and any of documents. -/
  | blob (running : Bool)
  | subscribe (running : Bool)
  | document (running : Bool)
  | request (r : Listening.Request) (running : Bool)
  | close
  /-- `IrohPeer::host`. -/
  | host (running : Bool)
  /-- The claim of a session is dropped. -/
  | leave (dispatcher : Nat)

/-- The steps of `Listened` that are taken as they are. -/
def plain : Listened.Action → Bool
  | .bind _ | .drain _ | .listen _ | .stopListening _ => true
  | .bindTask _ | .questionTask .. | .documentQuestionTask .. | .arrive .. => true
  | .request .. | .blob _ | .subscribe _ | .document _ | .close | .register _ | .release _ => false

/-- A session hosts on the dispatcher the endpoint has now. -/
def hosting (o : Owners) : Bool := o.closes ∈ o.hosts

/-- `IrohPeer::host` on the endpoint. -/
def host (running : Bool) (o : Owners) : Owners :=
  if o.endpoint.bound then
    let (claimed, registry) := Listening.startService sessionAlpn running o.endpoint.registry
    { o with endpoint.registry := registry, hosts := if claimed then o.closes :: o.hosts else o.hosts }
  else o

variable (p : Services) (tree : Bool) (parse : Parse)

def step (o : Owners) : Action → Option Owners
  | .own a =>
    if plain a then (o.toListened.step tree parse a).map fun l => { o with toListened := l } else none
  | .blob running => some { o with endpoint := o.endpoint.useDepot p running }
  | .subscribe running => some { o with endpoint := o.endpoint.useSwarm p running }
  | .document running => some { o with endpoint := o.endpoint.useLibrary p running }
  | .request r running => some { o with endpoint := (o.endpoint.useRequest p running tree parse r).2 }
  | .close =>
    some { o with endpoint := o.endpoint.close tree, calls := o.calls ++ [.closed], closes := o.closes + 1 }
  | .host running => some (o.host running)
  | .leave d =>
    if d ∈ o.hosts then
      some { o with
        hosts := o.hosts.erase d
        endpoint.registry := if d = o.closes then o.endpoint.registry.erase sessionAlpn else o.endpoint.registry }
    else none

/-- Every protocol the endpoint's dispatcher has registered, by its holder. -/
def owned (o : Owners) : List Alpn := o.endpoint.owned p o.hosting

end Owners

end Gdiroh.Endpoint
