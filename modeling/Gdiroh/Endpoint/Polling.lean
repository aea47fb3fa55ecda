/-
`listening_survives`: what was asked for and not withdrawn is claimed or
queued, never both and never twice; it is queued only before the endpoint is
bound and claimed only after. A bind that fails leaves the queue to the next.
The claims made when a bind comes through cannot fail, as the dispatcher is
new and the queue has no ALPN twice.

`ticks_iff_outstanding`: after every call the endpoint is subscribed to the
frame signal exactly while it waits for something. Every call that changes
what it waits for refreshes the subscription afterwards, and a call that does
not refresh leaves both alone.
-/
import Gdiroh.Endpoint.Listening

namespace Gdiroh.Endpoint

open Polled Dispatch

/-! ## What was asked for -/

theorem asked_nil {alpn : Alpn} : ¬ Asked [] alpn := by
  rintro ⟨before, after, h, -, -⟩
  simp at h

theorem asked_concat {calls : List Asking} {c : Asking} {alpn : Alpn} :
    Asked (calls ++ [c]) alpn ↔ c = .listened alpn ∨ c ≠ .stopped alpn ∧ c ≠ .closed ∧ Asked calls alpn := by
  constructor
  · rintro ⟨before, after, h, hs, hc⟩
    rcases List.eq_nil_or_concat after with rfl | ⟨after, d, rfl⟩
    · exact .inl (List.append_inj' h rfl |>.2 |> List.singleton_inj.1)
    · have hcalls : calls ++ [c] = (before ++ .listened alpn :: after) ++ [d] := by simpa using h
      obtain ⟨rfl, hd⟩ := List.append_inj' hcalls rfl
      obtain rfl := List.singleton_inj.1 hd
      simp only [List.concat_eq_append, List.mem_append, List.mem_singleton, not_or] at hs hc
      exact .inr ⟨Ne.symm hs.2, Ne.symm hc.2, before, after, rfl, hs.1, hc.1⟩
  · rintro (rfl | ⟨hs, hc, before, after, rfl, hs', hc'⟩)
    · exact ⟨calls, [], rfl, by simp, by simp⟩
    · exact ⟨before, after ++ [c], by simp, by simp [hs', Ne.symm hs], by simp [hc', Ne.symm hc]⟩

theorem asked_listened {calls : List Asking} {name alpn : Alpn} :
    Asked (calls ++ [.listened name]) alpn ↔ alpn = name ∨ Asked calls alpn := by
  simp [asked_concat, eq_comm]

theorem asked_stopped {calls : List Asking} {name alpn : Alpn} :
    Asked (calls ++ [.stopped name]) alpn ↔ alpn ≠ name ∧ Asked calls alpn := by
  simp [asked_concat, eq_comm]

theorem not_asked_closed {calls : List Asking} {alpn : Alpn} : ¬ Asked (calls ++ [.closed]) alpn := by
  simp [asked_concat]

namespace Listening

variable {tree : Bool} {e e' : Listening}

/-! ## The subscription -/

theorem refreshTicking_eq :
    e.refreshTicking tree = { e with ticking := if e.outstanding then e.ticking || tree else false } := by
  unfold refreshTicking startTicking stopTicking
  cases ho : e.outstanding <;> cases ht : e.ticking <;> cases tree <;> simp [← ht]

/-- The endpoint is subscribed exactly while something is outstanding. -/
def Ticks (e : Listening) : Prop := e.ticking = e.outstanding

theorem refreshTicking_ticks : (e.refreshTicking true).Ticks := by
  rw [refreshTicking_eq]
  show (if e.outstanding then e.ticking || true else false) = e.outstanding
  cases e.outstanding <;> simp

/-- A change that leaves the subscription and what is waited for alone. -/
theorem Ticks.of_eq (h : e.Ticks) (ht : e'.ticking = e.ticking) (ho : e'.outstanding = e.outstanding) : e'.Ticks := by
  rw [Ticks, ht, ho]
  exact h

theorem claim_ticks {alpn : Alpn} (h : e.Ticks) : (e.claim true alpn).2.Ticks := by
  unfold claim
  split
  · exact h
  split
  · exact h
  split
  · exact h
  · exact refreshTicking_ticks

theorem bind_ticks {now : Now} (h : e.Ticks) : (e.bind true now).Ticks := by
  unfold bind
  split
  · exact h
  split
  · exact refreshTicking_ticks
  · exact h

theorem listen_ticks {name : String} (h : e.Ticks) : (e.listen true name).2.Ticks := by
  unfold listen
  simp only
  split
  · exact h
  split
  · exact h
  split
  · -- The bind in flight is already polled for.
    split
    · exact h
    split
    · exact h
    · exact h.of_eq rfl rfl
  · exact claim_ticks h

theorem query_ticks {kind : Kind} {about : String} {now : Now} (h : e.Ticks) :
    (e.query true kind about now).2.Ticks := by
  unfold query
  simp only
  split
  · exact refreshTicking_ticks
  · exact h.of_eq rfl rfl

theorem queryDocuments_ticks {kind : DocKind} {about : String} {now : Now} (h : e.Ticks) :
    (e.queryDocuments true kind about now).2.Ticks := by
  unfold queryDocuments
  simp only
  split
  · exact refreshTicking_ticks
  · exact h.of_eq rfl rfl

/-- Every request either leaves the endpoint as it is or puts one question. -/
theorem request_cases (tree : Bool) (e : Listening) (parse : Parse) (now : Now) (r : Request) :
    (e.request tree parse now r).2 = e ∨
      (∃ kind about, e.request tree parse now r = e.query tree kind about now) ∨
      ∃ kind about, e.request tree parse now r = e.queryDocuments tree kind about now := by
  cases r with
  | blobStatus hash =>
    simp only [request, requestBlobStatus]
    split
    · exact .inr (.inl ⟨_, _, rfl⟩)
    · exact .inl rfl
  | blobList => exact .inr (.inl ⟨_, _, rfl⟩)
  | tag hash tag =>
    simp only [request, tagBlob]
    split
    · split
      · exact .inl rfl
      · exact .inr (.inl ⟨_, _, rfl⟩)
    · exact .inl rfl
  | untag tag =>
    simp only [request, untagBlob]
    split
    · exact .inl rfl
    · exact .inr (.inl ⟨_, _, rfl⟩)
  | tagList => exact .inr (.inl ⟨_, _, rfl⟩)
  | documentList => exact .inr (.inr ⟨_, _, rfl⟩)
  | dropDocument id =>
    simp only [request, dropDocument]
    split
    · exact .inr (.inr ⟨_, _, rfl⟩)
    · exact .inl rfl
  | authorList => exact .inr (.inr ⟨_, _, rfl⟩)
  | createAuthor => exact .inr (.inr ⟨_, _, rfl⟩)
  | setDefaultAuthor author =>
    simp only [request, setDefaultAuthor]
    split
    · exact .inr (.inr ⟨_, _, rfl⟩)
    · exact .inl rfl

theorem request_ticks {parse : Parse} {now : Now} {r : Request} (h : e.Ticks) :
    (e.request true parse now r).2.Ticks := by
  rcases request_cases true e parse now r with he | ⟨kind, about, he⟩ | ⟨kind, about, he⟩
  · rw [he]
    exact h
  · rw [he]
    exact query_ticks h
  · rw [he]
    exact queryDocuments_ticks h

/-! ## Claims and the queue -/

/-- The same claims and the same queue. -/
structure Alike (e e' : Listening) : Prop where
  bound : e'.bound = e.bound
  pendingListens : e'.pendingListens = e.pendingListens
  listeners : ∀ alpn, alpn ∈ e'.listeners ↔ alpn ∈ e.listeners

theorem Alike.refl (e : Listening) : e.Alike e := ⟨rfl, rfl, fun _ => Iff.rfl⟩

theorem Alike.trans {e'' : Listening} (h : e.Alike e') (h' : e'.Alike e'') : e.Alike e'' :=
  ⟨h'.bound.trans h.bound, h'.pendingListens.trans h.pendingListens,
    fun alpn => (h'.listeners alpn).trans (h.listeners alpn)⟩

theorem Alike.refreshTicking (h : e.Alike e') : e.Alike (e'.refreshTicking tree) := by
  rw [refreshTicking_eq]
  exact h.trans ⟨rfl, rfl, fun _ => Iff.rfl⟩

theorem asking_alike {kind : Kind} {about : String} {ask : Producer Answer} :
    e.Alike (e.asking tree kind about ask) :=
  Alike.refreshTicking ⟨rfl, rfl, fun _ => Iff.rfl⟩

theorem askingDocuments_alike {kind : DocKind} {about : String} {ask : Producer Reply} :
    e.Alike (e.askingDocuments tree kind about ask) :=
  Alike.refreshTicking ⟨rfl, rfl, fun _ => Iff.rfl⟩

/-- What waits in a claim changes; the claim stays. -/
theorem mem_insert_held {m : AList fun _ : Alpn => List Nat} {alpn other : Alpn} {waiting waiting' : List Nat}
    (h : m.lookup alpn = some waiting) : other ∈ m.insert alpn waiting' ↔ other ∈ m := by
  have hmem : alpn ∈ m := AList.lookup_isSome.1 (Option.isSome_iff_exists.2 ⟨waiting, h⟩)
  rw [AList.mem_insert]
  exact ⟨fun h => h.elim (fun he => he ▸ hmem) id, .inr⟩

theorem drainListener_alike (alpn : Alpn) : e.Alike (e.drainListener alpn) := by
  unfold drainListener
  split
  · exact .refl e
  next waiting hw =>
    exact ⟨rfl, rfl, fun other => mem_insert_held hw⟩

theorem drainListeners_alike (order : List Alpn) : e.Alike (e.drainListeners order) := by
  induction order generalizing e with
  | nil => exact .refl e
  | cons alpn order ih => exact (drainListener_alike alpn).trans ih

theorem startDepot_bound (e : IrohEndpoint) (starts : Starts) : (e.startDepot starts).bound = e.bound := by
  unfold IrohEndpoint.startDepot
  split <;> rfl

theorem startSwarm_bound (e : IrohEndpoint) (starts : Starts) : (e.startSwarm starts).bound = e.bound := by
  unfold IrohEndpoint.startSwarm
  split <;> rfl

theorem startLibrary_bound (e : IrohEndpoint) (starts : Starts) : (e.startLibrary starts).bound = e.bound := by
  unfold IrohEndpoint.startLibrary
  split
  · simp only
    split
    · exact startDepot_bound e starts
    · split
      · exact (startSwarm_bound _ starts).trans (startDepot_bound e starts)
      · exact (startSwarm_bound _ starts).trans (startDepot_bound e starts)
  · rfl

theorem request_alike {parse : Parse} {now : Now} {r : Request} : e.Alike (e.request tree parse now r).2 := by
  rcases request_cases tree e parse now r with he | ⟨kind, about, he⟩ | ⟨kind, about, he⟩
  · rw [he]
    exact .refl e
  · have hstart : e.Alike { e with toIrohEndpoint := e.toIrohEndpoint.startDepot now.starts } :=
      ⟨startDepot_bound _ _, rfl, fun _ => Iff.rfl⟩
    rw [he, query]
    split
    · exact hstart.trans asking_alike
    · exact hstart
  · have hstart : e.Alike { e with toIrohEndpoint := e.toIrohEndpoint.startLibrary now.starts } :=
      ⟨startLibrary_bound _ _, rfl, fun _ => Iff.rfl⟩
    rw [he, queryDocuments]
    split
    · exact hstart.trans askingDocuments_alike
    · exact hstart

/-- What a claim that goes through comes to. -/
theorem claim_new (tree : Bool) {alpn : Alpn} (hb : e.bound = true) (hl : alpn ∉ e.listeners) (hr : alpn ∉ e.registry) :
    (e.claim tree alpn).2 =
      refreshTicking tree { e with listeners := e.listeners.insert alpn [], registry := alpn :: e.registry } := by
  simp [claim, hb, hl, hr]

/-- **The queue is claimed.** On a dispatcher where none of the queue is
claimed, the whole of it is. -/
theorem claims_queue {queued : List Alpn} (hb : e.bound = true) (hn : queued.Nodup)
    (hl : ∀ alpn ∈ queued, alpn ∉ e.listeners) (hr : ∀ alpn ∈ queued, alpn ∉ e.registry) :
    let e' := queued.foldl (fun e alpn => (e.claim tree alpn).2) e
    e'.bound = true ∧ e'.pendingListens = e.pendingListens ∧
      ∀ alpn, alpn ∈ e'.listeners ↔ alpn ∈ e.listeners ∨ alpn ∈ queued := by
  induction queued generalizing e with
  | nil => exact ⟨hb, rfl, fun alpn => by simp⟩
  | cons first rest ih =>
    obtain ⟨hfirst, hrest⟩ := List.nodup_cons.1 hn
    have hne : ∀ alpn ∈ rest, alpn ≠ first := fun alpn hmem he => hfirst (he ▸ hmem)
    have hnew := claim_new tree hb (hl first (by simp)) (hr first (by simp))
    obtain ⟨hb', hp', hl'⟩ := ih (e := (e.claim tree first).2) (by rw [hnew, refreshTicking_eq]; exact hb) hrest
      (by
        intro alpn hmem
        rw [hnew, refreshTicking_eq, AList.mem_insert, not_or]
        exact ⟨hne alpn hmem, hl alpn (by simp [hmem])⟩)
      (by
        intro alpn hmem
        rw [hnew, refreshTicking_eq, List.mem_cons, not_or]
        exact ⟨hne alpn hmem, hr alpn (by simp [hmem])⟩)
    refine ⟨hb', ?_, fun alpn => ?_⟩
    · rw [List.foldl_cons, hp', hnew, refreshTicking_eq]
    · rw [List.foldl_cons, hl', hnew, refreshTicking_eq, AList.mem_insert, List.mem_cons]
      tauto

/-- What `listen` comes to: nothing, or it finds the ALPN queued or claimed,
or it queues it, or it claims it. -/
theorem listen_cases (tree : Bool) (e : Listening) (name : String) :
    e.listen tree name = (false, e) ∨
      e.listen tree name = (true, e) ∧ (alpnOf name ∈ e.listeners ∨ alpnOf name ∈ e.pendingListens) ∨
      e.bound = false ∧ alpnOf name ∉ e.pendingListens ∧
        e.listen tree name = (true, { e with pendingListens := e.pendingListens ++ [alpnOf name] }) ∨
      e.bound = true ∧ e.listen tree name = (true, refreshTicking tree { e with
        listeners := e.listeners.insert (alpnOf name) []
        registry := alpnOf name :: e.registry }) := by
  unfold listen
  simp only
  split
  · exact .inl rfl
  split
  · exact .inl rfl
  split
  next hb =>
    split
    · exact .inl rfl
    split
    next hmem => exact .inr (.inl ⟨rfl, .inr hmem⟩)
    next hmem => exact .inr (.inr (.inl ⟨hb, hmem, rfl⟩))
  next hb =>
    unfold claim
    split
    next hmem => exact .inr (.inl ⟨rfl, .inl hmem⟩)
    split
    · exact .inl rfl
    · exact .inr (.inr (.inr ⟨by simpa using hb, rfl⟩))

/-- What is left of the queue and the claims once a bind has come through. -/
theorem settleBind_ok (tree : Bool) (id : String) (hn : e.pendingListens.Nodup)
    (hd : ∀ alpn ∈ e.pendingListens, alpn ∉ e.listeners) :
    (e.settleBind tree (.ok id)).bound = true ∧ (e.settleBind tree (.ok id)).pendingListens = [] ∧
      ∀ alpn, alpn ∈ (e.settleBind tree (.ok id)).listeners ↔ alpn ∈ e.listeners ∨ alpn ∈ e.pendingListens := by
  simp only [settleBind, refreshTicking_eq]
  exact claims_queue rfl hn hd (by simp)

theorem settleBind_error {reason : String} : e.Alike (e.settleBind tree (.error reason)) := by
  simp only [settleBind, refreshTicking_eq]
  exact ⟨rfl, rfl, fun _ => Iff.rfl⟩

end Listening

namespace Listened

open Listening

variable {tree : Bool} {parse : Parse}

theorem keys_isEmpty {m : AList fun _ : Alpn => List Nat} {alpn : Alpn} (h : alpn ∈ m) : m.keys.isEmpty = false := by
  rw [List.isEmpty_eq_false_iff_exists_mem]
  exact ⟨alpn, h⟩

/-- A question that is changed where it stands is still there. -/
theorem changeAt_isEmpty {τ : Type} {l l' : List τ} {i : Nat} {change : τ → Option τ}
    (h : changeAt l i change = some l') : l'.isEmpty = l.isEmpty := by
  obtain ⟨x, -, rfl⟩ := Option.map_eq_some_iff.1 h
  cases l with
  | nil => rfl
  | cons y l => cases i <;> rfl

theorem step_ticks {l l' : Listened} {a : Action} (h : l.endpoint.Ticks) (ha : l.step true parse a = some l') :
    l'.endpoint.Ticks := by
  cases a with
  | bind now =>
    obtain rfl := Option.some.inj ha
    exact bind_ticks h
  | drain order =>
    simp only [step] at ha
    split at ha
    · obtain rfl := Option.some.inj ha
      exact refreshTicking_ticks
    · simp at ha
  | listen name =>
    obtain rfl := Option.some.inj ha
    exact listen_ticks h
  | stopListening name =>
    obtain rfl := Option.some.inj ha
    exact refreshTicking_ticks
  | request r now =>
    obtain rfl := Option.some.inj ha
    exact request_ticks h
  | blob starts =>
    obtain rfl := Option.some.inj ha
    exact h.of_eq rfl rfl
  | subscribe starts =>
    obtain rfl := Option.some.inj ha
    exact h.of_eq rfl rfl
  | document starts =>
    obtain rfl := Option.some.inj ha
    exact h.of_eq rfl rfl
  | close =>
    obtain rfl := Option.some.inj ha
    exact refreshTicking_ticks
  | bindTask m =>
    obtain ⟨p, hp, ha⟩ := Option.bind_eq_some_iff.1 ha
    obtain ⟨p', -, rfl⟩ := Option.map_eq_some_iff.1 ha
    exact h.of_eq rfl (by simp [outstanding, hp])
  | questionTask i m =>
    obtain ⟨qs, hqs, rfl⟩ := Option.map_eq_some_iff.1 ha
    exact h.of_eq rfl (by simp only [outstanding, changeAt_isEmpty hqs])
  | documentQuestionTask i m =>
    obtain ⟨qs, hqs, rfl⟩ := Option.map_eq_some_iff.1 ha
    exact h.of_eq rfl (by simp only [outstanding, changeAt_isEmpty hqs])
  | arrive alpn connection =>
    obtain ⟨waiting, hw, rfl⟩ := Option.map_eq_some_iff.1 ha
    have hmem : alpn ∈ l.endpoint.listeners := AList.lookup_isSome.1 (Option.isSome_iff_exists.2 ⟨waiting, hw⟩)
    refine h.of_eq rfl ?_
    simp only [outstanding, keys_isEmpty hmem, keys_isEmpty ((AList.mem_insert _).2 (.inl rfl))]
  | register alpn =>
    simp only [step] at ha
    split at ha
    · obtain rfl := Option.some.inj ha
      exact h.of_eq rfl rfl
    · simp at ha
  | release alpn =>
    simp only [step] at ha
    split at ha
    · obtain rfl := Option.some.inj ha
      exact h.of_eq rfl rfl
    · simp at ha

/-- **Polling while something is outstanding.** With a scene tree, the
endpoint is subscribed to the frame signal after every call exactly while a
bind, a listener or a question is outstanding. -/
theorem ticks_iff_outstanding {as : List Action} {l : Listened} (h : Machine.run (step true parse) {} as = some l) :
    l.endpoint.ticking = true ↔ l.endpoint.pendingBind.isSome = true ∨ l.endpoint.listeners.keys ≠ [] ∨
      l.endpoint.questions ≠ [] ∨ l.endpoint.documentQuestions ≠ [] := by
  have hticks : l.endpoint.Ticks :=
    Machine.run_invariant (I := fun l => l.endpoint.Ticks) (fun _ _ _ hl ha => step_ticks hl ha) h rfl
  rw [hticks]
  simp [outstanding, or_assoc]

/-- A bind in flight is polled for. -/
theorem ticks_while_binding :
    ∃ l, Machine.run (step true ⟨fun _ => true, fun _ => true, fun _ => true⟩) {} [.bind {}] = some l ∧
      l.endpoint.ticking = true :=
  ⟨_, rfl, (@ticks_iff_outstanding ⟨fun _ => true, fun _ => true, fun _ => true⟩ [.bind {}] _ rfl).2 (.inl rfl)⟩

/-! ## What was asked for is claimed or queued -/

structure Survives (l : Listened) : Prop where
  asked : ∀ alpn, (alpn ∈ l.endpoint.listeners ∨ alpn ∈ l.endpoint.pendingListens) ↔ Asked l.calls alpn
  nodup : l.endpoint.pendingListens.Nodup
  disjoint : ∀ alpn ∈ l.endpoint.pendingListens, alpn ∉ l.endpoint.listeners
  bound : l.endpoint.bound = true → l.endpoint.pendingListens = []
  unbound : l.endpoint.bound = false → ∀ alpn, alpn ∉ l.endpoint.listeners

theorem survives_init : Survives {} :=
  ⟨fun _ => iff_of_false (by simp) asked_nil, List.nodup_nil, by simp, fun _ => rfl, fun _ => by simp⟩

theorem Survives.alike {l l' : Listened} (h : l.Survives) (he : l.endpoint.Alike l'.endpoint)
    (hc : l'.calls = l.calls) : l'.Survives := by
  refine ⟨fun alpn => ?_, ?_, fun alpn hmem => ?_, fun hb => ?_, fun hb alpn => ?_⟩
  · rw [he.listeners, he.pendingListens, hc]
    exact h.asked alpn
  · rw [he.pendingListens]
    exact h.nodup
  · rw [he.pendingListens] at hmem
    rw [he.listeners]
    exact h.disjoint alpn hmem
  · rw [he.pendingListens]
    exact h.bound (he.bound ▸ hb)
  · rw [he.listeners]
    exact h.unbound (he.bound ▸ hb) alpn

/-- When a bind comes through, all that is queued is claimed. -/
theorem Survives.settleBind {l : Listened} (h : l.Survives) (outcome : Except String String) :
    Survives { l with endpoint := l.endpoint.settleBind tree outcome } := by
  cases outcome with
  | error reason => exact h.alike settleBind_error rfl
  | ok id =>
    obtain ⟨hb, hp, hl⟩ := settleBind_ok tree id h.nodup h.disjoint
    refine ⟨fun alpn => ?_, ?_, ?_, fun _ => hp, fun hb' => ?_⟩
    · rw [hl, hp, ← h.asked alpn]
      simp
    · rw [hp]
      exact List.nodup_nil
    · rw [hp]
      simp
    · rw [hb] at hb'
      simp at hb'

theorem Survives.drainBind {l : Listened} (h : l.Survives) :
    Survives { l with endpoint := l.endpoint.drainBind tree } := by
  unfold Listening.drainBind
  split
  · exact h
  · split
    · exact h.settleBind _
    · split
      · exact h
      · exact h.settleBind _

theorem Survives.drain {l : Listened} (h : l.Survives) (order : List Alpn) :
    Survives { l with endpoint := l.endpoint.drain tree order } := by
  refine (h.drainBind : Survives { l with endpoint := l.endpoint.drainBind tree }).alike ?_ rfl
  have hquestions : ∀ e : Listening, e.Alike (e.drainQuestions tree) :=
    fun e => Alike.refreshTicking ⟨rfl, rfl, fun _ => Iff.rfl⟩
  have hdocuments : ∀ e : Listening, e.Alike (e.drainDocumentQuestions tree) :=
    fun e => Alike.refreshTicking ⟨rfl, rfl, fun _ => Iff.rfl⟩
  exact ((drainListeners_alike order).trans (hquestions _)).trans (hdocuments _)

/-- A `listen` that returns true leaves the ALPN claimed or queued, whichever
the endpoint is ready for. -/
theorem Survives.listen {l : Listened} (h : l.Survives) (name : String) :
    Survives
      { endpoint := (l.endpoint.listen tree name).2
        calls := if (l.endpoint.listen tree name).1 then l.calls ++ [.listened (alpnOf name)] else l.calls } := by
  rcases listen_cases tree l.endpoint name with he | ⟨he, hmem⟩ | ⟨hb, hnot, he⟩ | ⟨hb, he⟩
  · rw [he]
    exact h
  · -- It was asked for already.
    rw [he]
    refine ⟨fun alpn => ?_, h.nodup, h.disjoint, h.bound, h.unbound⟩
    simp only [if_true, asked_listened, ← h.asked alpn]
    constructor
    · exact .inr
    · rintro (rfl | hin)
      · exact hmem
      · exact hin
  · rw [he]
    refine ⟨fun alpn => ?_, ?_, fun alpn _ => h.unbound hb alpn, fun hb' => ?_, h.unbound⟩
    · simp only [if_true, asked_listened, ← h.asked alpn, List.mem_append, List.mem_singleton]
      tauto
    · refine List.nodup_append.2 ⟨h.nodup, List.nodup_singleton _, fun alpn hmem other hother => ?_⟩
      rintro rfl
      exact hnot (List.mem_singleton.1 hother ▸ hmem)
    · rw [hb] at hb'
      simp at hb'
  · have hp := h.bound hb
    rw [he, refreshTicking_eq]
    refine ⟨fun alpn => ?_, h.nodup, ?_, h.bound, fun hb' => ?_⟩
    · simp only [if_true, asked_listened, ← h.asked alpn, AList.mem_insert]
      tauto
    · simp [hp]
    · rw [hb] at hb'
      simp at hb'

theorem Survives.stopListening {l : Listened} (h : l.Survives) (name : String) :
    Survives { endpoint := l.endpoint.stopListening tree name, calls := l.calls ++ [.stopped (alpnOf name)] } := by
  have hl : ∀ alpn, alpn ∈ (l.endpoint.stopListening tree name).listeners ↔
      alpn ≠ alpnOf name ∧ alpn ∈ l.endpoint.listeners := by
    intro alpn
    simp only [Listening.stopListening, refreshTicking_eq, AList.mem_erase]
  have hp : (l.endpoint.stopListening tree name).pendingListens =
      l.endpoint.pendingListens.filter (· ≠ alpnOf name) := by
    simp only [Listening.stopListening, refreshTicking_eq]
  have hb : (l.endpoint.stopListening tree name).bound = l.endpoint.bound := by
    simp only [Listening.stopListening, refreshTicking_eq]
  refine ⟨fun alpn => ?_, ?_, ?_, ?_, ?_⟩
  · simp only [hl, hp, asked_stopped, ← h.asked alpn, List.mem_filter, decide_eq_true_eq]
    tauto
  · rw [hp]
    exact h.nodup.filter _
  · intro alpn hmem
    simp only [hp, List.mem_filter] at hmem
    rw [hl]
    exact fun hc => h.disjoint alpn hmem.1 hc.2
  · intro hbound
    rw [hp, h.bound (hb ▸ hbound)]
    rfl
  · intro hbound alpn hmem
    exact h.unbound (hb ▸ hbound) alpn ((hl alpn).1 hmem).2

theorem survives_closed {l : Listened} :
    Survives { endpoint := l.endpoint.close tree, calls := l.calls ++ [.closed] } := by
  simp only [Listening.close, refreshTicking_eq, teardown]
  exact ⟨fun _ => iff_of_false (by simp) not_asked_closed, List.nodup_nil, by simp, fun _ => rfl, fun _ => by simp⟩

theorem Survives.step {l l' : Listened} {a : Action} (h : l.Survives) (ha : l.step tree parse a = some l') :
    l'.Survives := by
  cases a with
  | bind now =>
    obtain rfl := Option.some.inj ha
    refine h.alike ?_ rfl
    show l.endpoint.Alike (l.endpoint.bind tree now)
    unfold Listening.bind
    split
    · exact .refl _
    split
    · exact Alike.refreshTicking ⟨rfl, rfl, fun _ => Iff.rfl⟩
    · exact .refl _
  | drain order =>
    simp only [Listened.step] at ha
    split at ha
    · obtain rfl := Option.some.inj ha
      exact h.drain order
    · simp at ha
  | listen name =>
    obtain rfl := Option.some.inj ha
    exact h.listen name
  | stopListening name =>
    obtain rfl := Option.some.inj ha
    exact h.stopListening name
  | request r now =>
    obtain rfl := Option.some.inj ha
    exact h.alike request_alike rfl
  | blob starts =>
    obtain rfl := Option.some.inj ha
    exact h.alike ⟨startDepot_bound _ _, rfl, fun _ => Iff.rfl⟩ rfl
  | subscribe starts =>
    obtain rfl := Option.some.inj ha
    exact h.alike ⟨startSwarm_bound _ _, rfl, fun _ => Iff.rfl⟩ rfl
  | document starts =>
    obtain rfl := Option.some.inj ha
    exact h.alike ⟨startLibrary_bound _ _, rfl, fun _ => Iff.rfl⟩ rfl
  | close =>
    obtain rfl := Option.some.inj ha
    exact survives_closed
  | bindTask m =>
    obtain ⟨p, -, ha⟩ := Option.bind_eq_some_iff.1 ha
    obtain ⟨p', -, rfl⟩ := Option.map_eq_some_iff.1 ha
    exact h.alike ⟨rfl, rfl, fun _ => Iff.rfl⟩ rfl
  | questionTask i m =>
    obtain ⟨qs, -, rfl⟩ := Option.map_eq_some_iff.1 ha
    exact h.alike ⟨rfl, rfl, fun _ => Iff.rfl⟩ rfl
  | documentQuestionTask i m =>
    obtain ⟨qs, -, rfl⟩ := Option.map_eq_some_iff.1 ha
    exact h.alike ⟨rfl, rfl, fun _ => Iff.rfl⟩ rfl
  | arrive alpn connection =>
    obtain ⟨waiting, hw, rfl⟩ := Option.map_eq_some_iff.1 ha
    exact h.alike ⟨rfl, rfl, fun other => mem_insert_held hw⟩ rfl
  | register alpn =>
    simp only [Listened.step] at ha
    split at ha
    · obtain rfl := Option.some.inj ha
      exact h.alike ⟨rfl, rfl, fun _ => Iff.rfl⟩ rfl
    · simp at ha
  | release alpn =>
    simp only [Listened.step] at ha
    split at ha
    · obtain rfl := Option.some.inj ha
      exact h.alike ⟨rfl, rfl, fun _ => Iff.rfl⟩ rfl
    · simp at ha

/-- **Listening survives binding.** At every point, what `listen` was asked
for since the last close and `stop_listening` has not withdrawn is what is
claimed or queued; nothing is queued twice, or both queued and claimed, the
queue is empty while the endpoint is bound, and nothing is claimed while it is
not. -/
theorem listening_survives {as : List Action} {l : Listened} (h : Machine.run (step tree parse) {} as = some l) :
    (∀ alpn, (alpn ∈ l.endpoint.listeners ∨ alpn ∈ l.endpoint.pendingListens) ↔ Asked l.calls alpn) ∧
      l.endpoint.pendingListens.Nodup ∧ (∀ alpn ∈ l.endpoint.pendingListens, alpn ∉ l.endpoint.listeners) ∧
      (l.endpoint.bound = true → l.endpoint.pendingListens = []) ∧
      (l.endpoint.bound = false → ∀ alpn, alpn ∉ l.endpoint.listeners) := by
  have hl := Machine.run_invariant (fun _ _ _ hl ha => Survives.step hl ha) h survives_init
  exact ⟨hl.asked, hl.nodup, hl.disjoint, hl.bound, hl.unbound⟩

/-- A protocol asked for during a bind that fails is claimed by the next. -/
theorem listening_survives_failed_bind :
    ∃ l, Machine.run (step true ⟨fun _ => true, fun _ => true, fun _ => true⟩) {}
        [.bind {}, .listen "chat", .bindTask (.send (.error "")), .drain [], .bind {}, .bindTask (.send (.ok "")),
          .drain [alpnOf "chat"]] = some l ∧
      l.endpoint.bound = true ∧ (alpnOf "chat" ∈ l.endpoint.listeners ∨ alpnOf "chat" ∈ l.endpoint.pendingListens) := by
  have hrun : (Machine.run (step true ⟨fun _ => true, fun _ => true, fun _ => true⟩) {}
      [.bind {}, .listen "chat", .bindTask (.send (.error "")), .drain [], .bind {}, .bindTask (.send (.ok "")),
        .drain [alpnOf "chat"]]).map (fun l => (l.endpoint.bound, l.calls)) =
      some (true, [.listened (alpnOf "chat")]) := by decide +kernel
  obtain ⟨l, hl, he⟩ := Option.map_eq_some_iff.1 hrun
  simp only [Prod.mk.injEq] at he
  refine ⟨l, hl, he.1, ((listening_survives hl).1 _).2 ?_⟩
  rw [he.2]
  exact ⟨[], [], rfl, by simp, by simp⟩

end Listened
end Gdiroh.Endpoint
