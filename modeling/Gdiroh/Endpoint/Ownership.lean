/-
`claims_exact`: what an endpoint's dispatcher has registered is at all times
what script, the services and a session hold there, each protocol once. A start
that fails leaves no claim behind, and no claim outlives its holder.

`claims_granted` draws from it which calls get their claim. Script that listens
for a service's protocol keeps the service from starting, and nothing else
does while the runtime runs.
-/
import Gdiroh.Endpoint.Owners
import Gdiroh.Endpoint.Polling

namespace Gdiroh.Endpoint

open Polled Dispatch

/-! ## A registry and its holders -/

namespace Listening

/-- What is registered is what is held, each protocol once. -/
structure Held (registry owned : List Alpn) : Prop where
  count : ∀ alpn, registry.count alpn = owned.count alpn
  once : registry.Nodup

theorem Held.perm {registry owned : List Alpn} (h : Held registry owned) : registry.Perm owned :=
  List.perm_iff_count.2 h.count

theorem Held.mem {registry owned : List Alpn} (h : Held registry owned) {alpn : Alpn} :
    alpn ∈ registry ↔ alpn ∈ owned :=
  h.perm.mem_iff

/-- One is claimed. -/
theorem Held.take {registry owned owned' : List Alpn} {alpn : Alpn} (h : Held registry owned) (hfree : alpn ∉ registry)
    (hmore : ∀ k, owned'.count k = (alpn :: owned).count k) : Held (alpn :: registry) owned' where
  count k := by
    rw [hmore, List.count_cons, List.count_cons, h.count]
  once := List.nodup_cons.2 ⟨hfree, h.once⟩

/-- One is let go. -/
theorem Held.give {registry owned owned' : List Alpn} {alpn : Alpn} (h : Held registry owned)
    (hless : ∀ k, owned.count k = (alpn :: owned').count k) : Held (registry.erase alpn) owned' where
  count k := by
    have hk := h.count k
    rw [hless, List.count_cons] at hk
    rw [List.count_erase, hk]
    omega
  once := h.once.erase alpn

theorem Held.same {registry owned owned' : List Alpn} (h : Held registry owned)
    (hsame : ∀ k, owned'.count k = owned.count k) : Held registry owned' where
  count k := (h.count k).trans (hsame k).symm
  once := h.once

/-- What a start comes to. -/
theorem startService_cases (alpn : Alpn) (running : Bool) (registry : List Alpn) :
    alpn ∉ registry ∧ running = true ∧ startService alpn running registry = (true, alpn :: registry) ∨
      ¬ (alpn ∉ registry ∧ running = true) ∧ startService alpn running registry = (false, registry) := by
  simp only [startService, List.contains_iff_mem]
  split
  · next hheld => exact .inr ⟨fun h => h.1 hheld, rfl⟩
  split
  · next hfree hrunning => exact .inl ⟨hfree, hrunning, rfl⟩
  · next hfree hrunning => exact .inr ⟨fun h => hrunning h.2, by rw [List.erase_cons_head]⟩

section
variable {p : Services} {running hosting tree : Bool} {e : Listening}

theorem owned_count (p : Services) (e : Listening) (hosting : Bool) (k : Alpn) : (e.owned p hosting).count k =
    e.listeners.keys.count k + (if e.depot.isSome then [p.blobs] else []).count k +
      (if e.swarm then [p.gossip] else []).count k + (if e.library.isSome then [p.docs] else []).count k +
        (if hosting then [sessionAlpn] else []).count k := by
  simp only [owned, services, List.count_append]
  omega

theorem mem_owned {k : Alpn} : k ∈ e.owned p hosting ↔ k ∈ e.listeners ∨ e.depot.isSome = true ∧ k = p.blobs ∨
    e.swarm = true ∧ k = p.gossip ∨ e.library.isSome = true ∧ k = p.docs ∨ hosting = true ∧ k = sessionAlpn := by
  have hif : ∀ (c : Bool) (alpn : Alpn), k ∈ (if c then [alpn] else []) ↔ c = true ∧ k = alpn := by
    intro c alpn
    cases c <;> simp
  simp only [owned, services, List.mem_append, hif, AList.mem_keys, or_assoc]

/-- The store is up, and its protocol is claimed for it, or all is as before. -/
theorem useDepot_cases (p : Services) (running : Bool) (e : Listening) :
    (e.depot = none ∧ e.bound = true ∧ p.blobs ∉ e.registry ∧ running = true) ∧
        e.useDepot p running = { e with registry := p.blobs :: e.registry, depot := some ⟨e.path⟩ } ∨
      ¬ (e.depot = none ∧ e.bound = true ∧ p.blobs ∉ e.registry ∧ running = true) ∧ e.useDepot p running = e := by
  unfold useDepot
  simp only [Option.isNone_iff_eq_none]
  split
  · next h =>
    rcases startService_cases p.blobs running e.registry with ⟨hfree, hrunning, hs⟩ | ⟨hno, hs⟩
    · exact .inl ⟨⟨h.1, h.2, hfree, hrunning⟩, by rw [hs]; rfl⟩
    · refine .inr ⟨fun hyes => hno ⟨hyes.2.2.1, hyes.2.2.2⟩, ?_⟩
      rw [hs]
      exact congrArg (fun depot => { e with depot }) h.1.symm
  · next h => exact .inr ⟨fun hyes => h ⟨hyes.1, hyes.2.1⟩, rfl⟩

theorem useSwarm_cases (p : Services) (running : Bool) (e : Listening) :
    (e.swarm = false ∧ e.bound = true ∧ p.gossip ∉ e.registry ∧ running = true) ∧
        e.useSwarm p running = { e with registry := p.gossip :: e.registry, swarm := true } ∨
      ¬ (e.swarm = false ∧ e.bound = true ∧ p.gossip ∉ e.registry ∧ running = true) ∧ e.useSwarm p running = e := by
  unfold useSwarm
  split
  · next h =>
    rcases startService_cases p.gossip running e.registry with ⟨hfree, hrunning, hs⟩ | ⟨hno, hs⟩
    · exact .inl ⟨⟨h.1, h.2, hfree, hrunning⟩, by rw [hs]⟩
    · refine .inr ⟨fun hyes => hno ⟨hyes.2.2.1, hyes.2.2.2⟩, ?_⟩
      rw [hs]
      exact congrArg (fun swarm => { e with swarm }) h.1.symm
  · next h => exact .inr ⟨fun hyes => h ⟨hyes.1, hyes.2.1⟩, rfl⟩

theorem useDepot_rest (p : Services) (running : Bool) (e : Listening) :
    (e.useDepot p running).swarm = e.swarm ∧ (e.useDepot p running).library = e.library ∧
      (e.useDepot p running).bound = e.bound ∧ (e.useDepot p running).listeners = e.listeners := by
  rcases useDepot_cases p running e with ⟨-, he⟩ | ⟨-, he⟩
  · rw [he]
    exact ⟨rfl, rfl, rfl, rfl⟩
  · rw [he]
    exact ⟨rfl, rfl, rfl, rfl⟩

theorem useSwarm_rest (p : Services) (running : Bool) (e : Listening) :
    (e.useSwarm p running).depot = e.depot ∧ (e.useSwarm p running).library = e.library ∧
      (e.useSwarm p running).bound = e.bound ∧ (e.useSwarm p running).listeners = e.listeners := by
  rcases useSwarm_cases p running e with ⟨-, he⟩ | ⟨-, he⟩
  · rw [he]
    exact ⟨rfl, rfl, rfl, rfl⟩
  · rw [he]
    exact ⟨rfl, rfl, rfl, rfl⟩

/-- The blob store and gossip are brought up, and then the documents, with the
store's handle; or it is left at that. -/
theorem useLibrary_cases (p : Services) (running : Bool) (e : Listening) :
    let e₁ := e.useDepot p running
    let e₂ := e₁.useSwarm p running
    ¬ (e.library = none ∧ e.bound = true) ∧ e.useLibrary p running = e ∨
      (e.library = none ∧ e.bound = true) ∧
        (e₁.depot = none ∧ e.useLibrary p running = e₁ ∨ ∃ store, e₁.depot = some store ∧
          (e₂.swarm = false ∧ e.useLibrary p running = e₂ ∨
            (e₂.swarm = true ∧ p.docs ∉ e₂.registry ∧ running = true) ∧ e.useLibrary p running =
              { e₂ with registry := p.docs :: e₂.registry, library := some ⟨store, e₂.path⟩ } ∨
            (e₂.swarm = true ∧ ¬ (p.docs ∉ e₂.registry ∧ running = true)) ∧ e.useLibrary p running = e₂)) := by
  intro e₁ e₂
  unfold useLibrary
  simp only [Option.isNone_iff_eq_none]
  split
  · next h =>
    refine .inr ⟨h, ?_⟩
    have hlibrary : e₂.library = none :=
      (useSwarm_rest p running e₁).2.1.trans ((useDepot_rest p running e).2.1.trans h.1)
    split
    · next hnone => exact .inl ⟨hnone, rfl⟩
    · next store hstore =>
      refine .inr ⟨store, hstore, ?_⟩
      split
      · next hswarm =>
        rcases startService_cases p.docs running e₂.registry with ⟨hfree, hrunning, hs⟩ | ⟨hno, hs⟩
        · exact .inr (.inl ⟨⟨hswarm, hfree, hrunning⟩, by rw [hs]; rfl⟩)
        · refine .inr (.inr ⟨⟨hswarm, hno⟩, ?_⟩)
          rw [hs]
          exact congrArg (fun library => { e₂ with library }) hlibrary.symm
      · next hswarm => exact .inl ⟨by simpa using hswarm, rfl⟩
  · next h => exact .inl ⟨h, rfl⟩

/-! Each start is one of those the stores are otherwise given, with an outcome
that is settled here. -/

theorem useDepot_start {starts : Starts} (hstarts : starts.depot = true ↔ p.blobs ∉ e.registry ∧ running = true) :
    (e.useDepot p running).toIrohEndpoint = e.toIrohEndpoint.startDepot starts := by
  simp only [IrohEndpoint.startDepot, Option.isNone_iff_eq_none, hstarts]
  rcases useDepot_cases p running e with ⟨hyes, he⟩ | ⟨hno, he⟩
  · rw [he, if_pos hyes]
  · rw [he, if_neg hno]

theorem useSwarm_start {starts : Starts} (hstarts : starts.swarm = true ↔ p.gossip ∉ e.registry ∧ running = true) :
    (e.useSwarm p running).toIrohEndpoint = e.toIrohEndpoint.startSwarm starts := by
  simp only [IrohEndpoint.startSwarm, hstarts]
  rcases useSwarm_cases p running e with ⟨hyes, he⟩ | ⟨hno, he⟩
  · rw [he, if_pos hyes]
  · rw [he, if_neg hno]

theorem useLibrary_start (p : Services) (running : Bool) (e : Listening) :
    ∃ starts, (e.useLibrary p running).toIrohEndpoint = e.toIrohEndpoint.startLibrary starts := by
  obtain ⟨starts, hblobs, hgossip, hdocs⟩ : ∃ starts : Starts,
      (starts.depot = true ↔ p.blobs ∉ e.registry ∧ running = true) ∧
      (starts.swarm = true ↔ p.gossip ∉ (e.useDepot p running).registry ∧ running = true) ∧
      (starts.library = true ↔ p.docs ∉ ((e.useDepot p running).useSwarm p running).registry ∧ running = true) :=
    ⟨⟨decide _, decide _, decide _⟩, decide_eq_true_iff, decide_eq_true_iff, decide_eq_true_iff⟩
  have hdepot := useDepot_start hblobs
  have hswarm := useSwarm_start hgossip
  refine ⟨starts, ?_⟩
  simp only [IrohEndpoint.startLibrary, Option.isNone_iff_eq_none, ← hdepot, ← hswarm, hdocs]
  rcases useLibrary_cases p running e with ⟨hno, he⟩ | ⟨hyes, ⟨hd, he⟩ | ⟨store, hd, ⟨hw, he⟩ | ⟨hstart, he⟩ |
    ⟨⟨-, hno⟩, he⟩⟩⟩
  · rw [he, if_neg hno]
  · rw [he, if_pos hyes, hd]
  · rw [he, if_pos hyes, hd]
    exact (if_neg (by simp [hw])).symm
  · rw [he, if_pos hyes, hd]
    exact (if_pos hstart).symm
  · rw [he, if_pos hyes, hd]
    exact (if_neg fun hboth => hno hboth.2).symm

theorem useDepot_held (running : Bool) (h : Held e.registry (e.owned p hosting)) :
    Held (e.useDepot p running).registry ((e.useDepot p running).owned p hosting) := by
  rcases useDepot_cases p running e with ⟨⟨hnone, -, hfree, -⟩, he⟩ | ⟨-, he⟩
  · rw [he]
    refine h.take hfree fun k => ?_
    rw [owned_count, List.count_cons, owned_count]
    simp only [hnone, Option.isSome_some, Option.isSome_none, Bool.false_eq_true, if_true, if_false, List.count_nil,
      List.count_singleton]
    omega
  · rw [he]
    exact h

theorem useSwarm_held (running : Bool) (h : Held e.registry (e.owned p hosting)) :
    Held (e.useSwarm p running).registry ((e.useSwarm p running).owned p hosting) := by
  rcases useSwarm_cases p running e with ⟨⟨hno, -, hfree, -⟩, he⟩ | ⟨-, he⟩
  · rw [he]
    refine h.take hfree fun k => ?_
    rw [owned_count, List.count_cons, owned_count]
    simp only [hno, Bool.false_eq_true, if_true, if_false, List.count_nil, List.count_singleton]
    omega
  · rw [he]
    exact h

theorem useLibrary_held (h : Held e.registry (e.owned p hosting)) :
    Held (e.useLibrary p running).registry ((e.useLibrary p running).owned p hosting) := by
  have hdepot := useDepot_held running h
  have hswarm := useSwarm_held running hdepot
  rcases useLibrary_cases p running e with ⟨-, he⟩ | ⟨⟨hnone, -⟩, ⟨-, he⟩ | ⟨store, -, ⟨-, he⟩ | ⟨⟨-, hfree, -⟩, he⟩ |
    ⟨-, he⟩⟩⟩
  · rw [he]
    exact h
  · rw [he]
    exact hdepot
  · rw [he]
    exact hswarm
  · rw [he]
    have hlibrary : ((e.useDepot p running).useSwarm p running).library = none :=
      (useSwarm_rest p running _).2.1.trans ((useDepot_rest p running e).2.1.trans hnone)
    refine hswarm.take hfree fun k => ?_
    rw [owned_count, List.count_cons, owned_count]
    simp only [hlibrary, Option.isSome_some, Option.isSome_none, Bool.false_eq_true, if_true, if_false,
      List.count_nil, List.count_singleton]
    omega
  · rw [he]
    exact hswarm

@[simp] theorem refreshTicking_registry : (e.refreshTicking tree).registry = e.registry := by
  rw [refreshTicking_eq]

@[simp] theorem refreshTicking_owned : (e.refreshTicking tree).owned p hosting = e.owned p hosting := by
  rw [refreshTicking_eq]
  rfl

/-! The keys of a map, as far as their order goes. -/

theorem keys_insert_new {m : AList fun _ : Alpn => List Nat} {alpn : Alpn} {waiting : List Nat} (hnew : alpn ∉ m) :
    (m.insert alpn waiting).keys.Perm (alpn :: m.keys) := by
  refine (List.perm_ext_iff_of_nodup (AList.keys_nodup _) (List.nodup_cons.2 ⟨hnew, AList.keys_nodup m⟩)).2
    fun k => ?_
  rw [← AList.mem_keys, AList.mem_insert, List.mem_cons, AList.mem_keys]

theorem keys_insert_held {m : AList fun _ : Alpn => List Nat} {alpn : Alpn} {waiting : List Nat} (hmem : alpn ∈ m) :
    (m.insert alpn waiting).keys.Perm m.keys := by
  refine (List.perm_ext_iff_of_nodup (AList.keys_nodup _) (AList.keys_nodup m)).2 fun k => ?_
  rw [← AList.mem_keys, AList.mem_insert, ← AList.mem_keys]
  exact ⟨fun h => h.elim (fun he => he ▸ hmem) id, .inr⟩

theorem keys_erase_held {m : AList fun _ : Alpn => List Nat} {alpn : Alpn} (hmem : alpn ∈ m) :
    m.keys.Perm (alpn :: (m.erase alpn).keys) := by
  have hgone : alpn ∉ m.erase alpn := fun h => (AList.mem_erase.1 h).1 rfl
  refine (List.perm_ext_iff_of_nodup (AList.keys_nodup m) (List.nodup_cons.2 ⟨hgone, AList.keys_nodup _⟩)).2
    fun k => ?_
  rw [List.mem_cons, ← AList.mem_keys, ← AList.mem_keys, AList.mem_erase]
  by_cases hk : k = alpn
  · simp [hk, hmem]
  · simp [hk]

theorem keys_erase_other {m : AList fun _ : Alpn => List Nat} {alpn : Alpn} (hno : alpn ∉ m) :
    (m.erase alpn).keys.Perm m.keys := by
  refine (List.perm_ext_iff_of_nodup (AList.keys_nodup _) (AList.keys_nodup m)).2 fun k => ?_
  rw [← AList.mem_keys, ← AList.mem_keys, AList.mem_erase]
  exact ⟨And.right, fun hk => ⟨fun he => hno (he ▸ hk), hk⟩⟩

theorem claim_held {alpn : Alpn} (h : Held e.registry (e.owned p hosting)) :
    Held (e.claim tree alpn).2.registry ((e.claim tree alpn).2.owned p hosting) := by
  unfold claim
  split
  · exact h
  split
  · exact h
  split
  · exact h
  next hnew _ hfree =>
    rw [refreshTicking_registry, refreshTicking_owned]
    refine h.take hfree fun k => ?_
    rw [owned_count, List.count_cons, owned_count, (keys_insert_new hnew).count_eq k, List.count_cons]
    simp only
    omega

theorem claims_held {queued : List Alpn} (h : Held e.registry (e.owned p hosting)) :
    let e' := queued.foldl (fun e alpn => (e.claim tree alpn).2) e
    Held e'.registry (e'.owned p hosting) := by
  induction queued generalizing e with
  | nil => exact h
  | cons alpn queued ih => exact ih (claim_held h)

theorem listen_held {name : String} (h : Held e.registry (e.owned p hosting)) :
    Held (e.listen tree name).2.registry ((e.listen tree name).2.owned p hosting) := by
  unfold listen
  simp only
  split
  · exact h
  split
  · exact h
  split
  · split
    · exact h
    split
    · exact h
    · exact h
  · exact claim_held h

theorem stopListening_held {name : String} (h : Held e.registry (e.owned p hosting)) :
    Held (e.stopListening tree name).registry ((e.stopListening tree name).owned p hosting) := by
  unfold stopListening
  simp only [refreshTicking_registry, refreshTicking_owned]
  split
  · next hmem =>
    refine h.give fun k => ?_
    rw [owned_count, List.count_cons, owned_count, (keys_erase_held hmem).count_eq k, List.count_cons]
    simp only
    omega
  · next hmem =>
    refine h.same fun k => ?_
    rw [owned_count, owned_count, (keys_erase_other hmem).count_eq k]

theorem drainListener_held {alpn : Alpn} (h : Held e.registry (e.owned p hosting)) :
    Held (e.drainListener alpn).registry ((e.drainListener alpn).owned p hosting) := by
  unfold drainListener
  split
  · exact h
  · next waiting hw =>
    refine h.same fun k => ?_
    have hmem : alpn ∈ e.listeners := AList.lookup_isSome.1 (Option.isSome_iff_exists.2 ⟨waiting, hw⟩)
    rw [owned_count, owned_count, (keys_insert_held hmem).count_eq k]

theorem drainListeners_held (order : List Alpn) (h : Held e.registry (e.owned p hosting)) :
    Held (e.drainListeners order).registry ((e.drainListeners order).owned p hosting) := by
  induction order generalizing e with
  | nil => exact h
  | cons alpn order ih => exact ih (drainListener_held h)

/-- A bind that comes through finds nothing registered on its new dispatcher. -/
theorem settleBind_held {outcome : Except String String} (h : Held e.registry (e.owned p hosting))
    (hempty : e.registry = []) : Held (e.settleBind tree outcome).registry
      ((e.settleBind tree outcome).owned p hosting) := by
  cases outcome with
  | error reason =>
    simp only [settleBind, refreshTicking_eq]
    exact h
  | ok id =>
    simp only [settleBind, refreshTicking_eq]
    refine claims_held ?_
    rw [hempty] at h
    exact h

theorem drainBind_held (tree : Bool) (h : Held e.registry (e.owned p hosting))
    (hempty : e.pendingBind.isSome = true → e.registry = []) :
    Held (e.drainBind tree).registry ((e.drainBind tree).owned p hosting) := by
  unfold drainBind
  split
  · exact h
  · next q hq =>
    have hnone := hempty (by simp [hq])
    split
    · exact settleBind_held h hnone
    split
    · exact h
    · exact settleBind_held h hnone

theorem drain_held {order : List Alpn} (h : Held e.registry (e.owned p hosting))
    (hempty : e.pendingBind.isSome = true → e.registry = []) :
    Held (e.drain tree order).registry ((e.drain tree order).owned p hosting) := by
  unfold drain drainDocumentQuestions drainQuestions
  simp only [refreshTicking_registry, refreshTicking_owned]
  have hdrained := drainListeners_held order (drainBind_held tree h hempty)
  generalize (e.drainBind tree).drainListeners order = e' at hdrained ⊢
  rw [refreshTicking_eq]
  exact hdrained

/-- A request to a store that nothing is left to start for puts a question, or
does nothing. -/
theorem request_rest (p : Services) (hosting tree : Bool) (e : Listening) (parse : Parse) (running : Bool)
    (r : Request) :
    let e' := (e.request tree parse { starts := ⟨false, false, false⟩, running } r).2
    e'.registry = e.registry ∧ e'.owned p hosting = e.owned p hosting ∧ e'.pendingBind = e.pendingBind := by
  have hdepot : e.toIrohEndpoint.startDepot ⟨false, false, false⟩ = e.toIrohEndpoint := by
    simp [IrohEndpoint.startDepot]
  have hlibrary : e.toIrohEndpoint.startLibrary ⟨false, false, false⟩ = e.toIrohEndpoint := by
    simp only [IrohEndpoint.startLibrary, hdepot]
    split
    · split
      · rfl
      · simp [IrohEndpoint.startSwarm]
    · rfl
  rcases request_cases tree e parse { starts := ⟨false, false, false⟩, running } r with
    he | ⟨kind, about, he⟩ | ⟨kind, about, he⟩
  · rw [he]
    exact ⟨rfl, rfl, rfl⟩
  · rw [he, query, hdepot]
    split
    · rw [asking, refreshTicking_eq]
      exact ⟨rfl, rfl, rfl⟩
    · exact ⟨rfl, rfl, rfl⟩
  · rw [he, queryDocuments, hlibrary]
    split
    · rw [askingDocuments, refreshTicking_eq]
      exact ⟨rfl, rfl, rfl⟩
    · exact ⟨rfl, rfl, rfl⟩

theorem useRequest_held {parse : Parse} {r : Request} (h : Held e.registry (e.owned p hosting)) :
    let e' := (e.useRequest p running tree parse r).2
    Held e'.registry (e'.owned p hosting) := by
  obtain ⟨hregistry, howned, -⟩ := request_rest p hosting tree
    (if r.wellFormed parse then if r.documents then e.useLibrary p running else e.useDepot p running else e) parse
    running r
  unfold useRequest
  simp only
  rw [hregistry, howned]
  split
  · split
    · exact useLibrary_held h
    · exact useDepot_held running h
  · exact h

/-! ## When there are claims at all -/

/-- Without a dispatcher nothing is registered, a bind is in flight only then,
and script has not asked for the session's protocol. -/
structure Sane (e : Listening) : Prop where
  binding : e.pendingBind.isSome = true → e.bound = false
  unbound : e.bound = false → e.registry = []
  claimed : sessionAlpn ∉ e.listeners
  queued : sessionAlpn ∉ e.pendingListens

theorem Sane.alike {e' : Listening} (h : e.Sane) (he : e.Alike e')
    (hbinding : e'.pendingBind.isSome = true → e.bound = false) (hregistry : e.registry = [] → e'.registry = []) :
    e'.Sane where
  binding hp := he.bound ▸ hbinding hp
  unbound hb := hregistry (h.unbound (he.bound ▸ hb))
  claimed hmem := h.claimed ((he.listeners _).1 hmem)
  queued hmem := h.queued (he.pendingListens ▸ hmem)

theorem Sane.emit {emitted : List EndpointSignal} (h : e.Sane) : Sane { e with emitted } :=
  ⟨h.binding, h.unbound, h.claimed, h.queued⟩

theorem Sane.claim {alpn : Alpn} (h : e.Sane) (hne : alpn ≠ sessionAlpn) : (e.claim tree alpn).2.Sane := by
  unfold Listening.claim
  split
  · exact h
  split
  · exact h
  split
  · exact h
  · next _ hbound _ =>
    rw [refreshTicking_eq]
    refine ⟨h.binding, fun hno => absurd hno hbound, ?_, h.queued⟩
    rw [AList.mem_insert, not_or]
    exact ⟨Ne.symm hne, h.claimed⟩

theorem Sane.claims {queued : List Alpn} (h : e.Sane) (hne : sessionAlpn ∉ queued) :
    (queued.foldl (fun e alpn => (e.claim tree alpn).2) e).Sane := by
  induction queued generalizing e with
  | nil => exact h
  | cons alpn queued ih =>
    rw [List.mem_cons, not_or] at hne
    exact ih (h.claim (Ne.symm hne.1)) hne.2

theorem Sane.listen {name : String} (h : e.Sane) : (e.listen tree name).2.Sane := by
  unfold Listening.listen
  simp only
  split
  · exact h
  split
  · exact h
  next hne =>
    split
    · split
      · exact h
      split
      · exact h
      · refine ⟨h.binding, h.unbound, h.claimed, ?_⟩
        rw [List.mem_append, List.mem_singleton, not_or]
        exact ⟨h.queued, Ne.symm hne⟩
    · exact h.claim hne

theorem Sane.stopListening {name : String} (h : e.Sane) : (e.stopListening tree name).Sane := by
  unfold Listening.stopListening
  rw [refreshTicking_eq]
  refine ⟨h.binding, fun hno => ?_, fun hmem => h.claimed (AList.mem_erase.1 hmem).2, fun hmem => ?_⟩
  · simp [h.unbound hno]
  · exact h.queued (List.mem_filter.1 hmem).1

theorem Sane.settleBind {outcome : Except String String} (h : e.Sane) : (e.settleBind tree outcome).Sane := by
  cases outcome with
  | error reason =>
    refine h.alike settleBind_error (fun hp => ?_) (fun hr => ?_)
    · simp [Listening.settleBind, refreshTicking_eq] at hp
    · simpa only [Listening.settleBind, refreshTicking_eq] using hr
  | ok id =>
    simp only [Listening.settleBind, refreshTicking_eq]
    refine Sane.emit (Sane.claims ⟨?_, ?_, h.claimed, ?_⟩ h.queued)
    · simp
    · simp
    · simp

theorem Sane.drainBind (tree : Bool) (h : e.Sane) : (e.drainBind tree).Sane := by
  unfold Listening.drainBind
  split
  · exact h
  split
  · exact h.settleBind
  split
  · exact h
  · exact h.settleBind

theorem drainListener_rest (e : Listening) (alpn : Alpn) :
    (e.drainListener alpn).registry = e.registry ∧ (e.drainListener alpn).pendingBind = e.pendingBind := by
  unfold drainListener
  split
  · exact ⟨rfl, rfl⟩
  · exact ⟨rfl, rfl⟩

theorem Sane.drainListeners (order : List Alpn) (h : e.Sane) : (e.drainListeners order).Sane := by
  induction order generalizing e with
  | nil => exact h
  | cons alpn order ih =>
    obtain ⟨hregistry, hbind⟩ := drainListener_rest e alpn
    exact ih (h.alike (drainListener_alike alpn) (fun hp => h.binding (hbind ▸ hp)) fun hr => hregistry.trans hr)

theorem Sane.drain {order : List Alpn} (h : e.Sane) : (e.drain tree order).Sane := by
  have hdrained := (h.drainBind tree).drainListeners order
  unfold Listening.drain drainDocumentQuestions drainQuestions
  simp only [refreshTicking_eq]
  exact ⟨hdrained.binding, hdrained.unbound, hdrained.claimed, hdrained.queued⟩

theorem Sane.useDepot (p : Services) (running : Bool) (h : e.Sane) : (e.useDepot p running).Sane := by
  rcases useDepot_cases p running e with ⟨⟨-, hbound, -⟩, he⟩ | ⟨-, he⟩
  · rw [he]
    exact ⟨h.binding, fun hno => absurd (hbound.symm.trans hno) (by simp), h.claimed, h.queued⟩
  · rw [he]
    exact h

theorem Sane.useSwarm (p : Services) (running : Bool) (h : e.Sane) : (e.useSwarm p running).Sane := by
  rcases useSwarm_cases p running e with ⟨⟨-, hbound, -⟩, he⟩ | ⟨-, he⟩
  · rw [he]
    exact ⟨h.binding, fun hno => absurd (hbound.symm.trans hno) (by simp), h.claimed, h.queued⟩
  · rw [he]
    exact h

theorem Sane.useLibrary (h : e.Sane) : (e.useLibrary p running).Sane := by
  have hdepot := h.useDepot p running
  have hswarm := hdepot.useSwarm p running
  rcases useLibrary_cases p running e with ⟨-, he⟩ | ⟨⟨-, hbound⟩, ⟨-, he⟩ | ⟨store, -, ⟨-, he⟩ | ⟨-, he⟩ | ⟨-, he⟩⟩⟩
  · rw [he]
    exact h
  · rw [he]
    exact hdepot
  · rw [he]
    exact hswarm
  · rw [he]
    have hbound' : ((e.useDepot p running).useSwarm p running).bound = true :=
      (useSwarm_rest p running _).2.2.1.trans ((useDepot_rest p running e).2.2.1.trans hbound)
    exact ⟨hswarm.binding, fun hno => absurd (hbound'.symm.trans hno) (by simp), hswarm.claimed, hswarm.queued⟩
  · rw [he]
    exact hswarm

theorem Sane.useRequest {parse : Parse} {r : Request} (h : e.Sane) : (e.useRequest p running tree parse r).2.Sane := by
  have hask : ∀ e : Listening, e.Sane →
      (e.request tree parse { starts := ⟨false, false, false⟩, running } r).2.Sane := by
    intro e h
    obtain ⟨hregistry, -, hbind⟩ := request_rest p false tree e parse running r
    exact h.alike request_alike (fun hp => h.binding (hbind ▸ hp)) fun hr => hregistry.trans hr
  refine hask _ ?_
  split
  · split
    · exact h.useLibrary
    · exact h.useDepot p running
  · exact h

end
end Listening

/-! ## Which claims are free -/

theorem Services.Apart.ne {p : Services} (hp : p.Apart) :
    (p.blobs ≠ p.gossip ∧ p.blobs ≠ p.docs ∧ p.blobs ≠ sessionAlpn) ∧ (p.gossip ≠ p.docs ∧ p.gossip ≠ sessionAlpn) ∧
      p.docs ≠ sessionAlpn := by
  simpa [Services.Apart] using hp

namespace Listening

variable {p : Services} {running hosting : Bool} {e : Listening}

theorem blobs_registered (hp : p.Apart) (h : Held e.registry (e.owned p hosting)) (hnone : e.depot = none) :
    p.blobs ∈ e.registry ↔ p.blobs ∈ e.listeners := by
  rw [h.mem, mem_owned]
  simp [hnone, hp.ne]

theorem gossip_registered (hp : p.Apart) (h : Held e.registry (e.owned p hosting)) (hno : e.swarm = false) :
    p.gossip ∈ e.registry ↔ p.gossip ∈ e.listeners := by
  rw [h.mem, mem_owned]
  simp [hno, hp.ne, hp.ne.1.1.symm]

theorem docs_registered (hp : p.Apart) (h : Held e.registry (e.owned p hosting)) (hnone : e.library = none) :
    p.docs ∈ e.registry ↔ p.docs ∈ e.listeners := by
  rw [h.mem, mem_owned]
  simp [hnone, hp.ne, hp.ne.1.2.1.symm, hp.ne.2.1.1.symm]

theorem session_registered (hp : p.Apart) (h : Held e.registry (e.owned p hosting)) (hsane : e.Sane) :
    sessionAlpn ∈ e.registry ↔ hosting = true := by
  rw [h.mem, mem_owned]
  simp [hsane.claimed, hp.ne.1.2.2.symm, hp.ne.2.1.2.symm, hp.ne.2.2.symm]

theorem useDepot_depot (running : Bool) (hp : p.Apart) (h : Held e.registry (e.owned p hosting)) :
    (e.useDepot p running).depot.isSome = true ↔
      e.depot.isSome = true ∨ e.bound = true ∧ running = true ∧ p.blobs ∉ e.listeners := by
  rcases useDepot_cases p running e with ⟨⟨hnone, hbound, hfree, hrunning⟩, he⟩ | ⟨hno, he⟩
  · rw [he]
    exact iff_of_true rfl (.inr ⟨hbound, hrunning, mt (blobs_registered hp h hnone).2 hfree⟩)
  · rw [he]
    refine ⟨.inl, fun hor => hor.elim id fun hyes => ?_⟩
    rw [← Option.ne_none_iff_isSome]
    exact fun hnone => hno ⟨hnone, hyes.1, mt (blobs_registered hp h hnone).1 hyes.2.2, hyes.2.1⟩

theorem useSwarm_swarm (running : Bool) (hp : p.Apart) (h : Held e.registry (e.owned p hosting)) :
    (e.useSwarm p running).swarm = true ↔
      e.swarm = true ∨ e.bound = true ∧ running = true ∧ p.gossip ∉ e.listeners := by
  rcases useSwarm_cases p running e with ⟨⟨hswarm, hbound, hfree, hrunning⟩, he⟩ | ⟨hno, he⟩
  · rw [he]
    exact iff_of_true rfl (.inr ⟨hbound, hrunning, mt (gossip_registered hp h hswarm).2 hfree⟩)
  · rw [he]
    refine ⟨.inl, fun hor => hor.elim id fun hyes => ?_⟩
    rw [← Bool.not_eq_false]
    exact fun hswarm => hno ⟨hswarm, hyes.1, mt (gossip_registered hp h hswarm).1 hyes.2.2, hyes.2.1⟩

/-- Documents come up when all three services can. -/
theorem useLibrary_library (hp : p.Apart) (h : Held e.registry (e.owned p hosting)) :
    (e.useLibrary p running).library.isSome = true ↔ e.library.isSome = true ∨
      e.bound = true ∧ running = true ∧ (e.depot.isSome = true ∨ p.blobs ∉ e.listeners) ∧
        (e.swarm = true ∨ p.gossip ∉ e.listeners) ∧ p.docs ∉ e.listeners := by
  have hdepot := useDepot_held running h
  have hswarm := useSwarm_held running hdepot
  obtain ⟨hs₁, hl₁, hb₁, hk₁⟩ := useDepot_rest p running e
  obtain ⟨hd₂, hl₂, -, hk₂⟩ := useSwarm_rest p running (e.useDepot p running)
  have hcomes := useDepot_depot running hp h
  have hjoins := useSwarm_swarm running hp hdepot
  rw [hs₁, hb₁, hk₁] at hjoins
  have hdocs : e.library = none → (p.docs ∈ ((e.useDepot p running).useSwarm p running).registry ↔
      p.docs ∈ e.listeners) := by
    intro hnone
    rw [docs_registered hp hswarm (hl₂.trans (hl₁.trans hnone)), hk₂, hk₁]
  rcases useLibrary_cases p running e with ⟨hno, he⟩ | ⟨⟨hnone, hbound⟩, hcases⟩
  · rw [he]
    refine ⟨.inl, fun hor => hor.elim id fun hyes => ?_⟩
    rw [← Option.ne_none_iff_isSome]
    exact fun hnone => hno ⟨hnone, hyes.1⟩
  · have hlibrary : e.library.isSome = false := by simp [hnone]
    rw [hlibrary]
    rcases hcases with ⟨hd, he⟩ | ⟨store, hd, ⟨hw, he⟩ | ⟨⟨hw, hfree, hrunning⟩, he⟩ | ⟨⟨hw, hno⟩, he⟩⟩
    · -- The blob store does not come up.
      rw [he, hl₁, hlibrary]
      refine iff_of_false (by simp) ?_
      rintro (hf | ⟨-, hr, hb, -⟩)
      · simp at hf
      · have hup := hcomes.2 (hb.imp_right fun hb => ⟨hbound, hr, hb⟩)
        simp [hd] at hup
    · -- Gossip does not.
      rw [he, hl₂, hl₁, hlibrary]
      refine iff_of_false (by simp) ?_
      rintro (hf | ⟨-, hr, -, hg, -⟩)
      · simp at hf
      · have hup := hjoins.2 (hg.imp_right fun hg => ⟨hbound, hr, hg⟩)
        simp [hw] at hup
    · rw [he]
      refine iff_of_true rfl (.inr ⟨hbound, hrunning, ?_, ?_, mt (hdocs hnone).2 hfree⟩)
      · exact (hcomes.1 (by simp [hd])).imp_right fun hb => hb.2.2
      · exact (hjoins.1 hw).imp_right fun hg => hg.2.2
    · rw [he, hl₂, hl₁, hlibrary]
      refine iff_of_false (by simp) ?_
      rintro (hf | ⟨-, hr, -, -, hk⟩)
      · simp at hf
      · exact hno ⟨mt (hdocs hnone).1 hk, hr⟩

theorem listen_claimed {tree : Bool} {name : String} (h : Held e.registry (e.owned p hosting))
    (hbound : e.bound = true) : (e.listen tree name).1 = true ↔ alpnOf name ≠ [] ∧ alpnOf name ≠ sessionAlpn ∧
      (alpnOf name ∈ e.listeners ∨ alpnOf name ∉ e.services p) := by
  unfold listen claim
  simp only
  split
  · next hnil => simp [hnil]
  split
  · next hsession => simp [hsession]
  next hnil hsession =>
    have hregistered : alpnOf name ∈ e.registry ↔ alpnOf name ∈ e.listeners ∨ alpnOf name ∈ e.services p := by
      rw [h.mem, owned, List.mem_append, List.mem_append, ← AList.mem_keys]
      cases hosting <;> simp [hsession]
    rw [if_neg (by simp [hbound])]
    split
    · next hmem => simp [hnil, hsession, hmem]
    rw [if_neg (by simp [hbound])]
    next hmem =>
      split
      · next htaken => simp [hmem, (hregistered.1 htaken).resolve_left hmem]
      · next hfree => exact iff_of_true rfl ⟨hnil, hsession, .inr fun hs => hfree (hregistered.2 (.inr hs))⟩

end Listening

/-! ## Every claim has its holder -/

namespace Owners

variable {p : Services} {tree : Bool} {parse : Parse}

structure Exact (p : Services) (o : Owners) : Prop where
  held : Listening.Held o.endpoint.registry (o.owned p)
  sane : o.endpoint.Sane
  hosts : o.hosts.Nodup
  earlier : ∀ d ∈ o.hosts, d ≤ o.closes

theorem exact_init : Exact p {} where
  held := ⟨fun _ => rfl, List.nodup_nil⟩
  sane := ⟨by simp, fun _ => rfl, by simp, by simp⟩
  hosts := List.nodup_nil
  earlier := by simp

/-- A call on the endpoint alone. -/
theorem Exact.call {o : Owners} {e : Listening} {calls : List Asking} (h : Exact p o)
    (hheld : Listening.Held e.registry (e.owned p o.hosting)) (hsane : e.Sane) :
    Exact p { o with endpoint := e, calls := calls } :=
  ⟨hheld, hsane, h.hosts, h.earlier⟩

theorem plain_step {o : Owners} {l : Listened} {a : Listened.Action} (h : Exact p o) (hplain : plain a = true)
    (hs : o.toListened.step tree parse a = some l) : Exact p { o with toListened := l } := by
  have hempty : o.endpoint.pendingBind.isSome = true → o.endpoint.registry = [] :=
    fun hp => h.sane.unbound (h.sane.binding hp)
  cases a with
  | bind now =>
    obtain rfl := Option.some.inj hs
    unfold Listening.bind
    split
    · exact h
    split
    · next hfree _ =>
      rw [Listening.refreshTicking_eq]
      refine h.call h.held ⟨fun _ => ?_, h.sane.unbound, h.sane.claimed, h.sane.queued⟩
      simpa using fun hbound => hfree (.inr hbound)
    · exact h
  | drain order =>
    simp only [Listened.step] at hs
    split at hs
    · obtain rfl := Option.some.inj hs
      exact h.call (Listening.drain_held h.held hempty) h.sane.drain
    · simp at hs
  | listen name =>
    obtain rfl := Option.some.inj hs
    exact h.call (Listening.listen_held h.held) h.sane.listen
  | stopListening name =>
    obtain rfl := Option.some.inj hs
    exact h.call (Listening.stopListening_held h.held) h.sane.stopListening
  | bindTask m =>
    obtain ⟨q, hq, hs⟩ := Option.bind_eq_some_iff.1 hs
    obtain ⟨q', -, rfl⟩ := Option.map_eq_some_iff.1 hs
    refine h.call h.held ⟨fun _ => h.sane.binding (by simp [hq]), h.sane.unbound, h.sane.claimed, h.sane.queued⟩
  | questionTask i m =>
    obtain ⟨qs, -, rfl⟩ := Option.map_eq_some_iff.1 hs
    exact h.call h.held ⟨h.sane.binding, h.sane.unbound, h.sane.claimed, h.sane.queued⟩
  | documentQuestionTask i m =>
    obtain ⟨qs, -, rfl⟩ := Option.map_eq_some_iff.1 hs
    exact h.call h.held ⟨h.sane.binding, h.sane.unbound, h.sane.claimed, h.sane.queued⟩
  | arrive alpn connection =>
    obtain ⟨waiting, hw, rfl⟩ := Option.map_eq_some_iff.1 hs
    have hmem : alpn ∈ o.endpoint.listeners := AList.lookup_isSome.1 (Option.isSome_iff_exists.2 ⟨waiting, hw⟩)
    refine h.call (h.held.same fun k => ?_)
      ⟨h.sane.binding, h.sane.unbound, fun hc => h.sane.claimed ((Listening.mem_insert_held hw).1 hc), h.sane.queued⟩
    rw [Listening.owned_count, owned, Listening.owned_count, (Listening.keys_insert_held hmem).count_eq k]
  | request | blob | subscribe | document | close | register | release => simp [plain] at hplain

/-- The claim of a session comes and goes with the session. -/
theorem Exact.host {o : Owners} (h : Exact p o) (running : Bool) : Exact p (o.host running) := by
  unfold Owners.host
  split
  · next hbound =>
    rcases Listening.startService_cases sessionAlpn running o.endpoint.registry with ⟨hfree, -, hs⟩ | ⟨-, hs⟩
    · have hno : o.hosting = false := by
        by_contra hhosting
        exact hfree (h.held.mem.2 (Listening.mem_owned.2 (by simp [hhosting])))
      rw [hs]
      refine ⟨h.held.take hfree fun k => ?_, ⟨h.sane.binding, fun hun => ?_, h.sane.claimed, h.sane.queued⟩, ?_, ?_⟩
      · rw [owned, Listening.owned_count, List.count_cons, owned, Listening.owned_count, hno]
        simp only [hosting, if_true, List.mem_cons, true_or, decide_true, Bool.false_eq_true, if_false,
          List.count_singleton, List.count_nil]
        omega
      · exact absurd (hbound.symm.trans hun) (by simp)
      · refine List.nodup_cons.2 ⟨?_, h.hosts⟩
        simpa [hosting] using hno
      · intro d hd
        rcases List.mem_cons.1 hd with rfl | hd
        · exact le_refl _
        · exact h.earlier d hd
    · rw [hs]
      exact h
  · exact h

theorem Exact.leave {o : Owners} (h : Exact p o) {d : Nat} (hd : d ∈ o.hosts) :
    Exact p { o with
      hosts := o.hosts.erase d
      endpoint.registry := if d = o.closes then o.endpoint.registry.erase sessionAlpn else o.endpoint.registry } := by
  refine ⟨?_, ⟨h.sane.binding, fun hun => ?_, h.sane.claimed, h.sane.queued⟩, h.hosts.erase d,
    fun d' hd' => h.earlier d' (List.mem_of_mem_erase hd')⟩
  · split
    · next he =>
      refine h.held.give fun k => ?_
      have hgone : o.closes ∉ o.hosts.erase o.closes := fun hmem => (h.hosts.mem_erase_iff.1 hmem).1 rfl
      rw [owned, Listening.owned_count, List.count_cons, owned, Listening.owned_count]
      simp only [hosting, he ▸ hd, he, hgone, decide_true, decide_false, if_true, Bool.false_eq_true, if_false,
        List.count_singleton, List.count_nil]
      omega
    · next hne =>
      refine h.held.same fun k => ?_
      have hsame : hosting { o with hosts := o.hosts.erase d } = o.hosting := by
        rw [Bool.eq_iff_iff]
        simp [hosting, List.mem_erase_of_ne (Ne.symm hne)]
      exact congrArg (fun hosting => (o.endpoint.owned p hosting).count k) hsame
  · simp [h.sane.unbound hun]

theorem exact_step {o o' : Owners} {a : Action} (h : Exact p o) (hs : step p tree parse o a = some o') :
    Exact p o' := by
  cases a with
  | own a =>
    simp only [step] at hs
    split at hs
    · next hplain =>
      obtain ⟨l, hl, rfl⟩ := Option.map_eq_some_iff.1 hs
      exact plain_step h hplain hl
    · simp at hs
  | blob running =>
    obtain rfl := Option.some.inj hs
    exact h.call (Listening.useDepot_held running h.held) (h.sane.useDepot p running)
  | subscribe running =>
    obtain rfl := Option.some.inj hs
    exact h.call (Listening.useSwarm_held running h.held) (h.sane.useSwarm p running)
  | document running =>
    obtain rfl := Option.some.inj hs
    exact h.call (Listening.useLibrary_held h.held) h.sane.useLibrary
  | request r running =>
    obtain rfl := Option.some.inj hs
    exact h.call (Listening.useRequest_held h.held) h.sane.useRequest
  | close =>
    obtain rfl := Option.some.inj hs
    have hnew : o.closes + 1 ∉ o.hosts := fun hmem => absurd (h.earlier _ hmem) (by omega)
    refine ⟨⟨fun k => ?_, ?_⟩, ⟨?_, fun _ => ?_, ?_, ?_⟩, h.hosts, fun d hd => (h.earlier d hd).trans (Nat.le_succ _)⟩
    · simp [Listening.close, Listening.refreshTicking_eq, Listening.teardown, owned, Listening.owned,
        Listening.services, IrohEndpoint.teardown, hosting, hnew]
    all_goals simp [Listening.close, Listening.refreshTicking_eq, Listening.teardown]
  | host running =>
    obtain rfl := Option.some.inj hs
    exact h.host running
  | leave d =>
    simp only [step] at hs
    split at hs
    · next hd =>
      obtain rfl := Option.some.inj hs
      exact h.leave hd
    · simp at hs

/-- A peer hosts, and has the claim, exactly when nobody else has it. -/
theorem Exact.host_claims {o : Owners} (h : Exact p o) (hp : p.Apart) {running : Bool} :
    (o.host running).hosts ≠ o.hosts ↔ o.endpoint.bound = true ∧ running = true ∧ o.hosting = false := by
  have hregistered := Listening.session_registered hp h.held h.sane
  unfold Owners.host
  split
  · next hbound =>
    rcases Listening.startService_cases sessionAlpn running o.endpoint.registry with ⟨hfree, hrunning, hs⟩ | ⟨hno, hs⟩
    · rw [hs]
      refine iff_of_true (fun hsame => ?_) ⟨hbound, hrunning, by simpa using mt hregistered.2 hfree⟩
      simpa using congrArg List.length hsame
    · rw [hs]
      refine iff_of_false (fun hne => hne rfl) fun hyes => hno ⟨mt hregistered.1 ?_, hyes.2.1⟩
      simp [hyes.2.2]
  · next hbound => exact iff_of_false (fun hne => hne rfl) fun hyes => hbound hyes.1

/-- **Every claim has its holder, and one only.** In every run of an endpoint,
of the stores it starts and the sessions that host on it, what its dispatcher
has registered is what script listens for, what the services that run have
claimed, and the session's protocol while one hosts; each is there once.
Without a dispatcher nothing is; and on each dispatcher there ever was, one
session at most has the claim. -/
theorem claims_exact {as : List Action} {o : Owners} (hrun : Machine.run (step p tree parse) {} as = some o) :
    o.endpoint.registry.Perm (o.owned p) ∧ (o.owned p).Nodup ∧
      (o.endpoint.bound = false → o.owned p = []) ∧ o.hosts.Nodup := by
  have h := Machine.run_invariant (fun _ _ _ => exact_step) hrun exact_init
  refine ⟨h.held.perm, h.held.perm.nodup_iff.1 h.held.once, fun hno => ?_, h.hosts⟩
  have hperm := h.held.perm
  rw [h.sane.unbound hno] at hperm
  exact hperm.symm.eq_nil

/-- A bound endpoint with its own protocol, a session, and documents. -/
def hostAndShare : List Action :=
  [.own (.bind {}), .own (.listen "chat"), .own (.bindTask (.send (.ok "id"))), .own (.drain [alpnOf "chat"]),
    .host true, .document true]

/-- The ALPNs as they are at present. -/
def current : Services := ⟨alpnOf "/iroh-bytes/4", alpnOf "/iroh-gossip/1", alpnOf "/iroh-sync/1"⟩

theorem claims_exact_hostAndShare : ∃ o, Machine.run (step current true ⟨fun _ => true, fun _ => true, fun _ => true⟩)
    {} hostAndShare = some o ∧ o.endpoint.registry.length = 5 ∧ o.endpoint.registry.Perm (o.owned current) := by
  have hrun : ((Machine.run (step current true ⟨fun _ => true, fun _ => true, fun _ => true⟩) {} hostAndShare).map
      fun o => o.endpoint.registry.length) = some 5 := by
    decide +kernel
  obtain ⟨o, ho, he⟩ := Option.map_eq_some_iff.1 hrun
  exact ⟨o, ho, he, (claims_exact ho).1⟩

/-- **Who gets a claim.** Let the services' protocols and the session's differ.
In every run, on whatever endpoint there then is: a first use of the blob store
starts it if the endpoint is bound, the runtime runs and script does not itself
listen for the store's protocol; so it goes for gossip, and for documents with
all three protocols. Script gets to listen for a protocol on a bound endpoint
unless it is empty, the session's, or that of a service that runs. A peer gets
to host unless another does. -/
theorem claims_granted (hp : p.Apart) {as : List Action} {o : Owners}
    (hrun : Machine.run (step p tree parse) {} as = some o) (running : Bool) (name : String) :
    ((o.endpoint.useDepot p running).depot.isSome = true ↔ o.endpoint.depot.isSome = true ∨
      o.endpoint.bound = true ∧ running = true ∧ p.blobs ∉ o.endpoint.listeners) ∧
    ((o.endpoint.useSwarm p running).swarm = true ↔ o.endpoint.swarm = true ∨
      o.endpoint.bound = true ∧ running = true ∧ p.gossip ∉ o.endpoint.listeners) ∧
    ((o.endpoint.useLibrary p running).library.isSome = true ↔ o.endpoint.library.isSome = true ∨
      o.endpoint.bound = true ∧ running = true ∧ (o.endpoint.depot.isSome = true ∨ p.blobs ∉ o.endpoint.listeners) ∧
        (o.endpoint.swarm = true ∨ p.gossip ∉ o.endpoint.listeners) ∧ p.docs ∉ o.endpoint.listeners) ∧
    (o.endpoint.bound = true → ((o.endpoint.listen tree name).1 = true ↔
      alpnOf name ≠ [] ∧ alpnOf name ≠ sessionAlpn ∧
        (alpnOf name ∈ o.endpoint.listeners ∨ alpnOf name ∉ o.endpoint.services p))) ∧
    ((o.host running).hosts ≠ o.hosts ↔ o.endpoint.bound = true ∧ running = true ∧ o.hosting = false) := by
  have h := Machine.run_invariant (fun _ _ _ => exact_step) hrun exact_init
  exact ⟨Listening.useDepot_depot running hp h.held, Listening.useSwarm_swarm running hp h.held,
    Listening.useLibrary_library hp h.held, Listening.listen_claimed h.held, h.host_claims hp⟩

def listenAsBlobs : List Action :=
  [.own (.bind {}), .own (.listen "/iroh-bytes/4"), .own (.bindTask (.send (.ok "id"))), .own (.drain [current.blobs])]

/-- Script has the blob store's protocol, so the store does not start. -/
theorem claims_granted_taken : ∃ o, Machine.run (step current true ⟨fun _ => true, fun _ => true, fun _ => true⟩)
    {} listenAsBlobs = some o ∧ (o.endpoint.useDepot current true).depot.isSome = false := by
  have hrun : ((Machine.run (step current true ⟨fun _ => true, fun _ => true, fun _ => true⟩) {} listenAsBlobs).map
      fun o => (o.endpoint.depot.isSome, decide (current.blobs ∈ o.endpoint.listeners))) = some (false, true) := by
    decide +kernel
  obtain ⟨o, ho, he⟩ := Option.map_eq_some_iff.1 hrun
  simp only [Prod.mk.injEq, decide_eq_true_eq] at he
  refine ⟨o, ho, ?_⟩
  rw [← Bool.not_eq_true, (claims_granted (by decide +kernel) ho true "").1]
  simp [he]

end Owners
end Gdiroh.Endpoint
