/-
The connections that come for a protocol script listens for (`endpoint.rs`).
The dispatcher puts them into the claim, and a frame hands them out as
`connection_received`.

`reported_iff`: each is reported once, under the protocol it came for and in
the order it came, unless script stops listening for that protocol, or closes
the endpoint, while it waits for the next frame. Then it is never reported.
Between protocols there is no order: a `HashMap` yields its keys in any.
-/
import Gdiroh.Endpoint.Polling

namespace Gdiroh.Endpoint

open Polled Dispatch

/-- Those that go with a protocol. -/
def connections (alpn : Alpn) (l : List (Alpn × Nat)) : List Nat :=
  l.filterMap fun x => if x.1 = alpn then some x.2 else none

@[simp] theorem connections_nil {alpn : Alpn} : connections alpn [] = [] := rfl

@[simp] theorem connections_append {alpn : Alpn} (l m : List (Alpn × Nat)) :
    connections alpn (l ++ m) = connections alpn l ++ connections alpn m :=
  List.filterMap_append

theorem connections_same {alpn : Alpn} (waiting : List Nat) :
    connections alpn (waiting.map fun connection => (alpn, connection)) = waiting := by
  induction waiting with
  | nil => rfl
  | cons connection waiting ih =>
    rw [List.map_cons, ← List.singleton_append, connections_append, ih]
    simp [connections]

theorem connections_other {alpn other : Alpn} (hne : other ≠ alpn) (waiting : List Nat) :
    connections alpn (waiting.map fun connection => (other, connection)) = [] := by
  induction waiting with
  | nil => rfl
  | cons connection waiting ih =>
    rw [List.map_cons, ← List.singleton_append, connections_append, ih]
    simp [connections, hne]

namespace Listening

/-- The connections that wait in a claim. -/
def waiting (e : Listening) (alpn : Alpn) : List Nat := (e.listeners.lookup alpn).getD []

/-- The connections reported, and then those that wait. -/
def flow (e : Listening) (alpn : Alpn) : List Nat := connections alpn e.received ++ e.waiting alpn

variable {tree : Bool} {e e' : Listening}

theorem waiting_insert_self {m : AList fun _ : Alpn => List Nat} {alpn : Alpn} {w : List Nat} :
    ((m.insert alpn w).lookup alpn).getD [] = w := by
  rw [AList.lookup_insert]
  rfl

theorem waiting_insert_other {m : AList fun _ : Alpn => List Nat} {alpn other : Alpn} {w : List Nat}
    (hne : other ≠ alpn) : ((m.insert alpn w).lookup other).getD [] = (m.lookup other).getD [] := by
  rw [AList.lookup_insert_ne hne]

@[simp] theorem refreshTicking_flow : (e.refreshTicking tree).flow = e.flow := by
  rw [refreshTicking_eq]
  rfl

/-- A new claim is empty. -/
theorem claim_flow (alpn : Alpn) : (e.claim tree alpn).2.flow = e.flow := by
  unfold claim
  split
  · rfl
  split
  · rfl
  split
  · rfl
  next hnew _ _ =>
    rw [refreshTicking_flow]
    funext other
    unfold flow waiting
    by_cases hother : other = alpn
    · subst hother
      have hnone : e.listeners.lookup other = none := AList.lookup_eq_none.2 hnew
      simp only [waiting_insert_self, hnone, Option.getD_none]
    · simp only [waiting_insert_other hother]

theorem claims_flow (queued : List Alpn) : (queued.foldl (fun e alpn => (e.claim tree alpn).2) e).flow = e.flow := by
  induction queued generalizing e with
  | nil => rfl
  | cons alpn queued ih => exact ih.trans (claim_flow alpn)

theorem listen_flow (name : String) : (e.listen tree name).2.flow = e.flow := by
  unfold listen
  simp only
  split
  · rfl
  split
  · rfl
  split
  · split
    · rfl
    split
    · rfl
    · rfl
  · exact claim_flow _

/-- What waits is handed out, in its order. -/
theorem drainListener_flow (alpn : Alpn) : (e.drainListener alpn).flow = e.flow := by
  unfold drainListener
  split
  · rfl
  · next w hw =>
    funext other
    unfold flow waiting
    by_cases hother : other = alpn
    · subst hother
      simp only [waiting_insert_self, hw, connections_append, connections_same, Option.getD_some, List.append_nil]
    · simp only [waiting_insert_other hother, connections_append, connections_other (Ne.symm hother),
        List.append_nil]

theorem drainListeners_flow (order : List Alpn) : (e.drainListeners order).flow = e.flow := by
  induction order generalizing e with
  | nil => rfl
  | cons alpn order ih => exact ih.trans (drainListener_flow alpn)

theorem settleBind_flow (outcome : Except String String) : (e.settleBind tree outcome).flow = e.flow := by
  cases outcome with
  | error reason =>
    simp only [settleBind, refreshTicking_eq]
    rfl
  | ok id =>
    simp only [settleBind, refreshTicking_eq]
    exact claims_flow _

theorem drainBind_flow : (e.drainBind tree).flow = e.flow := by
  unfold drainBind
  split
  · rfl
  split
  · exact settleBind_flow _
  split
  · rfl
  · exact settleBind_flow _

theorem drain_flow (order : List Alpn) : (e.drain tree order).flow = e.flow := by
  unfold drain drainDocumentQuestions drainQuestions
  simp only [refreshTicking_eq]
  exact (drainListeners_flow order).trans drainBind_flow

theorem request_flow {parse : Parse} {now : Now} {r : Request} : (e.request tree parse now r).2.flow = e.flow := by
  rcases request_cases tree e parse now r with he | ⟨kind, about, he⟩ | ⟨kind, about, he⟩
  · rw [he]
  · rw [he, query]
    split
    · exact refreshTicking_flow
    · rfl
  · rw [he, queryDocuments]
    split
    · exact refreshTicking_flow
    · rfl

/-- What waits in the claim that is dropped is lost. -/
theorem stopListening_flow (name : String) (alpn : Alpn) : (e.stopListening tree name).flow alpn =
    if alpn = alpnOf name then connections alpn e.received else e.flow alpn := by
  unfold stopListening
  rw [refreshTicking_flow]
  unfold flow waiting
  by_cases he : alpn = alpnOf name
  · subst he
    rw [if_pos rfl, AList.lookup_erase]
    exact List.append_nil _
  · rw [if_neg he, AList.lookup_erase_ne he]

theorem close_flow (alpn : Alpn) : (e.close tree).flow alpn = connections alpn e.received := by
  unfold close
  rw [refreshTicking_flow]
  exact List.append_nil _

end Listening

/-! ## Arrivals -/

/-- An endpoint, with every connection that was routed to one of its claims. -/
structure Incoming extends Listened where
  arrived : List (Alpn × Nat) := []

namespace Incoming

/-- What is left of the flow where claims are dropped. -/
def kept (e : Listening) (alpn : Alpn) : Listened.Action → List Nat
  | .stopListening name => if alpn = alpnOf name then connections alpn e.received else e.flow alpn
  | .close => connections alpn e.received
  | _ => e.flow alpn

/-- What an action routes to a claim. -/
def routes : Listened.Action → List (Alpn × Nat)
  | .arrive alpn connection => [(alpn, connection)]
  | _ => []

variable (tree : Bool) (parse : Parse)

def step (i : Incoming) (a : Listened.Action) : Option Incoming :=
  (i.toListened.step tree parse a).map fun l => { toListened := l, arrived := i.arrived ++ routes a }

/-- The connections that came for a protocol, those reported, and those that wait. -/
def arrivals (i : Incoming) (alpn : Alpn) : List Nat := connections alpn i.arrived

def reported (i : Incoming) (alpn : Alpn) : List Nat := connections alpn i.endpoint.received

def waiting (i : Incoming) (alpn : Alpn) : List Nat := i.endpoint.waiting alpn

/-- None is missing. -/
def Complete (i : Incoming) : Prop := ∀ alpn, i.arrivals alpn = i.reported alpn ++ i.waiting alpn

/-- The step drops no claim in which a connection waits. -/
def Spares (i : Incoming) : Listened.Action → Prop
  | .stopListening name => i.waiting (alpnOf name) = []
  | .close => ∀ alpn ∈ i.endpoint.listeners.keys, i.waiting alpn = []
  | _ => True

variable {tree : Bool} {parse : Parse}

/-- **One step** puts what is routed at the end of the flow, and loses what
waits in a claim that is dropped. -/
theorem step_flow {l l' : Listened} {a : Listened.Action} (hs : l.step tree parse a = some l') (alpn : Alpn) :
    l'.endpoint.flow alpn = kept l.endpoint alpn a ++ connections alpn (routes a) := by
  cases a with
  | bind now =>
    obtain rfl := Option.some.inj hs
    refine Eq.trans ?_ (List.append_nil _).symm
    unfold Listening.bind
    split
    · rfl
    split
    · exact congrFun Listening.refreshTicking_flow alpn
    · rfl
  | drain order =>
    simp only [Listened.step] at hs
    split at hs
    · obtain rfl := Option.some.inj hs
      refine Eq.trans ?_ (List.append_nil _).symm
      exact congrFun (Listening.drain_flow order) alpn
    · simp at hs
  | listen name =>
    obtain rfl := Option.some.inj hs
    refine Eq.trans ?_ (List.append_nil _).symm
    exact congrFun (Listening.listen_flow name) alpn
  | stopListening name =>
    obtain rfl := Option.some.inj hs
    refine Eq.trans ?_ (List.append_nil _).symm
    exact Listening.stopListening_flow name alpn
  | request r now =>
    obtain rfl := Option.some.inj hs
    refine Eq.trans ?_ (List.append_nil _).symm
    exact congrFun Listening.request_flow alpn
  | blob | subscribe | document =>
    obtain rfl := Option.some.inj hs
    exact (List.append_nil _).symm
  | close =>
    obtain rfl := Option.some.inj hs
    refine Eq.trans ?_ (List.append_nil _).symm
    exact Listening.close_flow alpn
  | bindTask m =>
    obtain ⟨q, -, hs⟩ := Option.bind_eq_some_iff.1 hs
    obtain ⟨q', -, rfl⟩ := Option.map_eq_some_iff.1 hs
    exact (List.append_nil _).symm
  | questionTask i m | documentQuestionTask i m =>
    obtain ⟨qs, -, rfl⟩ := Option.map_eq_some_iff.1 hs
    exact (List.append_nil _).symm
  | arrive other connection =>
    obtain ⟨w, hw, rfl⟩ := Option.map_eq_some_iff.1 hs
    simp only [kept, Listening.flow, Listening.waiting, List.append_assoc]
    by_cases he : alpn = other
    · subst he
      simp [hw, routes, connections]
    · rw [Listening.waiting_insert_other he, routes]
      simp [connections, Ne.symm he]
  | register other | release other =>
    simp only [Listened.step] at hs
    split at hs
    · obtain rfl := Option.some.inj hs
      exact (List.append_nil _).symm
    · simp at hs

theorem kept_sublist (e : Listening) (alpn : Alpn) (a : Listened.Action) : (kept e alpn a).Sublist (e.flow alpn) := by
  have hless : (connections alpn e.received).Sublist (e.flow alpn) := List.sublist_append_left ..
  cases a with
  | stopListening name =>
    rw [kept]
    split
    · exact hless
    · exact List.Sublist.refl _
  | close => exact hless
  | _ => exact List.Sublist.refl _

/-- Nothing is lost exactly where nothing waits. -/
theorem kept_iff (i : Incoming) (a : Listened.Action) :
    (∀ alpn, i.endpoint.flow alpn = kept i.endpoint alpn a) ↔ i.Spares a := by
  have hlost : ∀ alpn, i.endpoint.flow alpn = connections alpn i.endpoint.received ↔ i.waiting alpn = [] :=
    fun alpn => List.append_right_eq_self
  cases a with
  | stopListening name =>
    constructor
    · intro h
      have hname := h (alpnOf name)
      rw [kept, if_pos rfl] at hname
      exact (hlost _).1 hname
    · intro h alpn
      rw [kept]
      split
      · next he => exact (hlost alpn).2 (he ▸ h)
      · rfl
  | close =>
    constructor
    · exact fun h alpn _ => (hlost alpn).1 (h alpn)
    · intro h alpn
      refine (hlost alpn).2 ?_
      by_cases hmem : alpn ∈ i.endpoint.listeners.keys
      · exact h alpn hmem
      · have hnone : i.endpoint.listeners.lookup alpn = none := AList.lookup_eq_none.2 hmem
        rw [waiting, Listening.waiting, hnone]
        rfl
  | _ => exact iff_of_true (fun _ => rfl) trivial

theorem complete_step {i i' : Incoming} {a : Listened.Action} (h : i.Complete) (hs : i.step tree parse a = some i') :
    i'.Complete ↔ i.Spares a := by
  obtain ⟨l, hl, rfl⟩ := Option.map_eq_some_iff.1 hs
  rw [← kept_iff]
  refine forall_congr' fun alpn => ?_
  have hflow := step_flow hl alpn
  have hbefore : connections alpn i.arrived = i.endpoint.flow alpn := h alpn
  change connections alpn (i.arrived ++ routes a) = l.endpoint.flow alpn ↔ _
  rw [connections_append, hflow, hbefore, List.append_cancel_right_eq]

/-- **Connections are reported once, in order, or lost with their claim.** In
every run, what was reported for a protocol and then what waits is, in the
order of arrival, some of what came for it. None of it is missing, at any
moment of the run, if and only if script never stops listening for a protocol,
and never closes the endpoint, while a connection for it waits. -/
theorem reported_iff {as : List Listened.Action} {i : Incoming} (hrun : Machine.run (step tree parse) {} as = some i) :
    (∀ alpn, (i.reported alpn ++ i.waiting alpn).Sublist (i.arrivals alpn)) ∧
      ((∀ bs u, bs <+: as → Machine.run (step tree parse) {} bs = some u → u.Complete) ↔
        Machine.Along (step tree parse) Spares {} as) := by
  refine ⟨fun alpn => ?_, Machine.invariant_iff_along (fun _ _ _ => complete_step) hrun fun alpn => rfl⟩
  refine Machine.run_invariant (I := fun i : Incoming => (i.endpoint.flow alpn).Sublist (i.arrivals alpn))
    (fun i a i' h hs => ?_) hrun (List.Sublist.refl _)
  obtain ⟨l, hl, rfl⟩ := Option.map_eq_some_iff.1 hs
  rw [step_flow hl alpn, arrivals, connections_append]
  exact ((kept_sublist i.endpoint alpn a).trans h).append (List.Sublist.refl _)

/-- Script takes one connection, and stops listening while the next waits. -/
def stopEarly : List Listened.Action :=
  [.bind {}, .listen "chat", .bindTask (.send (.ok "id")), .drain [alpnOf "chat"], .arrive (alpnOf "chat") 0,
    .drain [alpnOf "chat"], .arrive (alpnOf "chat") 1, .stopListening "chat"]

/-- The second is lost, as a claim was dropped in which it waited. -/
theorem reported_iff_stopEarly :
    ∃ i, Machine.run (step true ⟨fun _ => true, fun _ => true, fun _ => true⟩) {} stopEarly = some i ∧
      i.reported (alpnOf "chat") = [0] ∧
      ¬ Machine.Along (step true ⟨fun _ => true, fun _ => true, fun _ => true⟩) Spares {} stopEarly := by
  have hrun : ((Machine.run (step true ⟨fun _ => true, fun _ => true, fun _ => true⟩) {} stopEarly).map fun i =>
      (i.arrivals (alpnOf "chat"), i.reported (alpnOf "chat"), i.waiting (alpnOf "chat"))) =
      some ([0, 1], [0], []) := by decide +kernel
  obtain ⟨i, hi, he⟩ := Option.map_eq_some_iff.1 hrun
  simp only [Prod.mk.injEq] at he
  obtain ⟨harrived, hreported, hwaiting⟩ := he
  refine ⟨i, hi, hreported, fun hspares => ?_⟩
  have hcomplete := (reported_iff hi).2.2 hspares _ _ (List.prefix_refl _) hi (alpnOf "chat")
  rw [harrived, hreported, hwaiting] at hcomplete
  exact absurd hcomplete (by decide)

end Incoming
end Gdiroh.Endpoint
