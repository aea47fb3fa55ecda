/-
What becomes of a question put to a store.

`answers_accounted`: the signals are those that the answers taken call for,
once each; no question meets an answer of another kind; and the questions kept
are those not taken, in the order they were put. `signal_iff_said`: script is
told what a store returned and nothing else, a listing whole or not at all.
`answered_iff`: an answer can come unless the question's task went without one,
and then the endpoint polls for it until the end.
-/
import Gdiroh.Endpoint.Inquiries

namespace Gdiroh.Endpoint

open Polled Dispatch Ledger

/-! ## A question and its entry -/

section
variable {κ K ε : Type} {ρ : κ → Type} {kind : κ → K} {about : κ → String} {query : (k : κ) → ρ k → ε}

/-- A question asks what its entry says, and has its answer. -/
structure Stands (kind : κ → K) (about : κ → String) (query : (k : κ) → ρ k → ε) (x : Entry ρ) (q : Question K ε) :
    Prop where
  kind : q.kind = kind x.what
  about : q.about = about x.what
  queue : q.ask.queue = (x.fate.ready.map (query x.what)).toList
  ended : q.ask.ended = x.fate.ready.isSome
  there : x.fate = .asked → q.ask.there = true
  lost : x.fate = .lost → q.ask.there = false

namespace Stands

theorem asked (k : κ) (now : Now) : Stands kind about query ⟨k, now.fate⟩ ⟨kind k, about k, now.ask⟩ := by
  unfold Now.ask Now.fate
  split
  · exact ⟨rfl, rfl, rfl, rfl, fun _ => rfl, by simp⟩
  · exact ⟨rfl, rfl, rfl, rfl, by simp, fun _ => rfl⟩

theorem stop {x : Entry ρ} {q : Question K ε} (h : Stands kind about query x q) :
    Stands kind about query x q.stop := ⟨h.kind, h.about, h.queue, h.ended, h.there, h.lost⟩

/-- A task that has not answered yet answers. -/
theorem send {x : Entry ρ} {q q' : Question K ε} (h : Stands kind about query x q) {k : κ} (hk : x.what = k) {o : ρ k}
    (hm : q.move (.send (query k o)) = some q') : Stands kind about query ⟨k, .answered o⟩ q' := by
  obtain ⟨p, hp, rfl⟩ := Option.map_eq_some_iff.1 hm
  simp only [Producer.move] at hp
  split at hp
  · next hg =>
    obtain rfl := Option.some.inj hp
    have hnone : x.fate.ready = none := by
      have hended := h.ended.symm.trans hg.2
      cases hr : x.fate.ready with
      | none => rfl
      | some o => simp [hr] at hended
    have hqueue : q.ask.queue = [] := by rw [h.queue, hnone]; rfl
    refine ⟨hk ▸ h.kind, hk ▸ h.about, ?_, rfl, by simp, by simp⟩
    simp [hqueue, Fate.ready]
  · simp at hp

/-- A task that goes leaves its answer, and without one there is none. -/
theorem go {x : Entry ρ} {q q' : Question K ε} (h : Stands kind about query x q) {dropped : Bool}
    (hm : q.move (if dropped then .drop else .finish) = some q') :
    Stands kind about query ⟨x.what, x.fate.go⟩ q' := by
  obtain ⟨p, hp, rfl⟩ := Option.map_eq_some_iff.1 hm
  have hready : x.fate.go.ready = x.fate.ready := by cases x.fate <;> rfl
  have hasked : x.fate.go ≠ .asked := by cases x.fate <;> simp [Fate.go]
  have hgone : p.there = false ∧ p.queue = q.ask.queue ∧ p.ended = q.ask.ended := by
    cases dropped with
    | true =>
      simp only [if_true, Producer.move] at hp
      split at hp
      · exact Option.some.inj hp ▸ ⟨rfl, rfl, rfl⟩
      · simp at hp
    | false =>
      simp only [Bool.false_eq_true, if_false, Producer.move] at hp
      split at hp
      · exact Option.some.inj hp ▸ ⟨rfl, rfl, rfl⟩
      · simp at hp
  refine ⟨h.kind, h.about, ?_, ?_, fun he => absurd he hasked, fun _ => hgone.1⟩
  · rw [hready]
    exact hgone.2.1.trans h.queue
  · rw [hready]
    exact hgone.2.2.trans h.ended

theorem isEmpty {x : Entry ρ} {q : Question K ε} (h : Stands kind about query x q) :
    q.ask.queue.isEmpty = x.fate.ready.isNone := by
  rw [h.queue]
  cases x.fate.ready <;> rfl

end Stands

variable {β : Type} {f : (k : κ) → ρ k → Option β} {l : List (Entry ρ)} {questions : List (Question K ε)} {out : List β}

theorem beside_reply [DecidableEq κ] (h : Beside (Stands kind about query) f l questions out) {j : Nat} {k : κ}
    {o : ρ k} {x : List (Entry ρ) × List (Question K ε)} (hr : replyAt query l questions j k o = some x) :
    Beside (Stands kind about query) f x.1 x.2 out := by
  obtain ⟨y, hy, hr⟩ := Option.bind_eq_some_iff.1 hr
  split at hr
  · next hg =>
    obtain ⟨qs, hqs, rfl⟩ := Option.map_eq_some_iff.1 hr
    obtain ⟨q', hq', rfl⟩ := Option.map_eq_some_iff.1 hqs
    obtain ⟨q, hq, hm⟩ := Option.bind_eq_some_iff.1 hq'
    obtain ⟨q₀, hq₀, hR, hset⟩ := h.change hy hg.2
    obtain rfl := Option.some.inj (hq.symm.trans hq₀)
    exact hset ⟨k, .answered o⟩ q' rfl (hR.send hg.1 hm)
  · simp at hr

theorem isTaken_go {ρ : Type} {fate : Fate ρ} (h : fate.isTaken = false) : fate.go.isTaken = false := by
  cases fate with
  | asked | lost | answered => rfl
  | taken => exact h

theorem beside_go (h : Beside (Stands kind about query) f l questions out) {j : Nat} {dropped : Bool}
    {x : List (Entry ρ) × List (Question K ε)} (hr : goAt l questions j dropped = some x) :
    Beside (Stands kind about query) f x.1 x.2 out := by
  obtain ⟨y, hy, hr⟩ := Option.bind_eq_some_iff.1 hr
  split at hr
  · next hg =>
    obtain ⟨qs, hqs, rfl⟩ := Option.map_eq_some_iff.1 hr
    obtain ⟨q', hq', rfl⟩ := Option.map_eq_some_iff.1 hqs
    obtain ⟨q, hq, hm⟩ := Option.bind_eq_some_iff.1 hq'
    obtain ⟨q₀, hq₀, hR, hset⟩ := h.change hy hg
    obtain rfl := Option.some.inj (hq.symm.trans hq₀)
    exact hset _ q' (isTaken_go hg) (hR.go hm)
  · simp at hr

/-- A frame takes every answer there is. -/
theorem beside_drain {signal : K × String × ε → Option β}
    (h : Beside (Stands kind about query) (fun k o => signal (kind k, about k, query k o)) l questions out) :
    Beside (Stands kind about query) (fun k o => signal (kind k, about k, query k o)) (settle l)
      (Question.kept questions) (out ++ (Question.answered questions).filterMap signal) := by
  rw [Question.answered, List.filterMap_filterMap]
  refine h.take (fun x q hR => hR.isEmpty) fun x q hR => ?_
  rw [hR.kind, hR.about, hR.queue]
  cases x.fate.ready <;> rfl

end

/-! ## Every run -/

/-- The signal that an outcome calls for. -/
def BlobQuery.signal (lossy : Bytes → String) (q : BlobQuery) (outcome : q.Outcome) : Option EndpointSignal :=
  answer (q.kind, q.about, q.query lossy outcome)

def DocQuery.signal (q : DocQuery) (outcome : q.Outcome) : Option EndpointSignal :=
  answerDocuments (q.kind, q.about, q.query outcome)

namespace Inquiring

open Listening

variable {tree : Bool} {parse : Parse} {lossy : Bytes → String}

/-- Both ledgers agree with what the endpoint keeps and has said. -/
structure Accounted (lossy : Bytes → String) (w : Inquiring) : Prop where
  blobs : Beside (Stands BlobQuery.kind BlobQuery.about (BlobQuery.query lossy)) (BlobQuery.signal lossy) w.blobs
    w.listened.endpoint.talk.1.1 w.listened.endpoint.talk.1.2
  documents : Beside (Stands DocQuery.kind DocQuery.about DocQuery.query) DocQuery.signal w.documents
    w.listened.endpoint.talk.2.1 w.listened.endpoint.talk.2.2

theorem accounted_init : Accounted lossy {} := ⟨.nothing, .nothing⟩

/-- A call that is turned down asks nothing; one that is accepted asks one
store one thing. -/
theorem accounted_request {w : Inquiring} (h : w.Accounted lossy) {l : Listened} (r : Request) (now : Now)
    (htalk : l.endpoint.talk = (w.listened.endpoint.request tree parse now r).2.talk) : Accounted lossy {
      listened := l
      blobs := recordBlobs (w.listened.endpoint.request tree parse now r).1 w.blobs (.request r now)
      documents := recordDocuments (w.listened.endpoint.request tree parse now r).1 w.documents (.request r now) } := by
  rw [request_talk] at htalk
  cases hok : (w.listened.endpoint.request tree parse now r).1 with
  | false =>
    rw [hok, if_neg Bool.false_ne_true] at htalk
    exact ⟨by rw [htalk]; exact h.blobs, by rw [htalk]; exact h.documents⟩
  | true =>
    rw [hok, if_pos rfl] at htalk
    refine ⟨?_, ?_⟩
    · rw [htalk]
      cases hq : r.blob with
      | none => simpa [recordBlobs, hq] using h.blobs
      | some q => simpa [recordBlobs, hq] using h.blobs.ask now.fate_isTaken (.asked q now)
    · rw [htalk]
      cases hq : r.document with
      | none => simpa [recordDocuments, hq] using h.documents
      | some q => simpa [recordDocuments, hq] using h.documents.ask now.fate_isTaken (.asked q now)

theorem accounted_call {w : Inquiring} (h : w.Accounted lossy) {l : Listened} {a : Listened.Action}
    (ha : ofTask a = false) (hs : w.listened.step tree parse a = some l) : Accounted lossy
      { listened := l
        blobs := recordBlobs (accepts tree parse w.listened.endpoint a) w.blobs a
        documents := recordDocuments (accepts tree parse w.listened.endpoint a) w.documents a } := by
  have htalk := call_talk ha hs
  cases a with
  | drain order =>
    dsimp only at htalk
    refine ⟨?_, ?_⟩
    · rw [htalk]
      exact beside_drain h.blobs
    · rw [htalk]
      exact beside_drain h.documents
  | request r now => exact accounted_request h r now htalk
  | _ => exact ⟨by rw [htalk]; exact h.blobs, by rw [htalk]; exact h.documents⟩

theorem accounted_step {w w' : Inquiring} {a : Act} (h : w.Accounted lossy) (hs : w.step tree parse lossy a = some w') :
    w'.Accounted lossy := by
  cases a with
  | call a =>
    simp only [step] at hs
    split at hs
    · simp at hs
    · next ha =>
      obtain ⟨l, hl, rfl⟩ := Option.map_eq_some_iff.1 hs
      exact accounted_call h (by simpa using ha) hl
  | stop =>
    obtain rfl := Option.some.inj hs
    exact ⟨h.blobs.all fun x q => Stands.stop, h.documents.all fun x q => Stands.stop⟩
  | blobReply j q outcome =>
    obtain ⟨x, hx, rfl⟩ := Option.map_eq_some_iff.1 hs
    exact ⟨beside_reply h.blobs hx, h.documents⟩
  | blobGo j dropped =>
    obtain ⟨x, hx, rfl⟩ := Option.map_eq_some_iff.1 hs
    exact ⟨beside_go h.blobs hx, h.documents⟩
  | documentReply j q outcome =>
    obtain ⟨x, hx, rfl⟩ := Option.map_eq_some_iff.1 hs
    exact ⟨h.blobs, beside_reply h.documents hx⟩
  | documentGo j dropped =>
    obtain ⟨x, hx, rfl⟩ := Option.map_eq_some_iff.1 hs
    exact ⟨h.blobs, beside_go h.documents hx⟩

theorem accounted_run {as : List Act} {w : Inquiring} (h : Machine.run (step tree parse lossy) {} as = some w) :
    w.Accounted lossy :=
  Machine.run_invariant (I := Accounted lossy) (fun _ _ _ hw ha => accounted_step hw ha) h accounted_init

/-! ## What script hears -/

/-- The arms of `answer` that are not `unexpected answer`. -/
def expected : Kind → Answer → Bool
  | .status, .status .. | .blobs, .names _ | .tags, .names _ | .mutation, .done | _, .failed _ => true
  | _, _ => false

def expectedDocuments : DocKind → Reply → Bool
  | .documents, .names _ | .authors, .names _ | .newAuthor, .names _ | .mutation, .done | _, .failed _ => true
  | _, _ => false

end Inquiring

/-- An outcome and the signal that says it. Nothing says a failure or a change
that was made. -/
inductive BlobQuery.Says (lossy : Bytes → String) : (q : BlobQuery) → q.Outcome → EndpointSignal → Prop
  | notFound {hash} : Says lossy (.status hash) (.ok (.ok .notFound)) (.blobStatus hash false false 0)
  | incomplete {hash size} :
      Says lossy (.status hash) (.ok (.ok (.incomplete size))) (.blobStatus hash true false (size.getD 0).toInt64)
  | complete {hash size} :
      Says lossy (.status hash) (.ok (.ok (.complete size))) (.blobStatus hash true true size.toInt64)
  | list {hashes} : Says lossy .list (.ok (.ok hashes)) (.blobList hashes)
  | tags {names : List Bytes} : Says lossy .tags (.ok (.ok (names.map .ok))) (.tagList (names.map lossy))

inductive DocQuery.Says : (q : DocQuery) → q.Outcome → EndpointSignal → Prop
  | list {ids : List String} : Says .list (.ok (.ok (ids.map .ok))) (.documentList ids)
  | authors {authors : List String} : Says .authors (.ok (.ok (authors.map .ok))) (.authorList authors)
  | createAuthor {author} : Says .createAuthor (.ok (.ok author)) (.authorCreated author)

/-- A listing is collected when no item is an error, and then whole. -/
theorem collect_eq_ok {α : Type} {text : α → String} {acc names : List String} {items : List (Except String α)} :
    collect text acc items = .ok names ↔ ∃ raw : List α, items = raw.map .ok ∧ names = acc ++ raw.map text := by
  induction items generalizing acc with
  | nil =>
    simp only [collect, Except.ok.injEq]
    constructor
    · rintro rfl
      exact ⟨[], rfl, (List.append_nil _).symm⟩
    · rintro ⟨raw, hraw, rfl⟩
      rw [List.map_eq_nil_iff.1 hraw.symm, List.map_nil, List.append_nil]
  | cons item rest ih =>
    cases item with
    | ok item =>
      rw [collect, ih]
      constructor
      · rintro ⟨raw, rfl, rfl⟩
        exact ⟨item :: raw, rfl, by simp⟩
      · rintro ⟨raw, hraw, rfl⟩
        obtain ⟨first, raw, rfl, hfirst, rfl⟩ := List.map_eq_cons_iff.1 hraw.symm
        obtain rfl := Except.ok.inj hfirst
        exact ⟨raw, rfl, by simp⟩
    | error reason =>
      simp only [collect, reduceCtorEq, false_iff]
      rintro ⟨raw, hraw, -⟩
      obtain ⟨first, raw, -, hfirst, -⟩ := List.map_eq_cons_iff.1 hraw.symm
      simp at hfirst

theorem BlobQuery.signal_says {lossy : Bytes → String} {q : BlobQuery} {o : q.Outcome} {s : EndpointSignal} :
    q.signal lossy o = some s ↔ q.Says lossy o s := by
  constructor
  · intro h
    cases q with
    | status hash =>
      rcases o with reason | reason | found
      · simp [signal, query, answer, kind] at h
      · simp [signal, query, answer, kind, work, statusAnswer] at h
      · cases found with
        | notFound => exact Option.some.inj h ▸ .notFound
        | incomplete size => exact Option.some.inj h ▸ .incomplete
        | complete size => exact Option.some.inj h ▸ .complete
    | list =>
      rcases o with reason | reason | hashes
      · simp [signal, query, answer, kind] at h
      · simp [signal, query, answer, kind, work, namesAnswer] at h
      · exact Option.some.inj h ▸ .list
    | tag hash name | untag name =>
      rcases o with reason | reason | done
      · simp [signal, query, answer, kind] at h
      · simp [signal, query, answer, kind, work, doneAnswer] at h
      · simp [signal, query, answer, kind, work, doneAnswer] at h
    | tags =>
      rcases o with reason | reason | items
      · simp [signal, query, answer, kind] at h
      · simp [signal, query, answer, kind, work, namesAnswer, Except.bind] at h
      · cases hc : collect lossy [] items with
        | error reason => simp [signal, query, answer, kind, work, namesAnswer, Except.bind, hc] at h
        | ok names =>
          obtain ⟨raw, rfl, hnames⟩ := collect_eq_ok.1 hc
          simp only [signal, query, answer, kind, work, namesAnswer, Except.bind, hc, Option.some.injEq] at h
          rw [← h, hnames]
          exact .tags
  · intro h
    cases h with
    | notFound | incomplete | complete | list => rfl
    | @tags names =>
      have hc : collect lossy [] (names.map .ok) = .ok (names.map lossy) := collect_eq_ok.2 ⟨names, rfl, rfl⟩
      simp [signal, query, answer, kind, work, namesAnswer, Except.bind, hc]

theorem DocQuery.signal_says {q : DocQuery} {o : q.Outcome} {s : EndpointSignal} :
    q.signal o = some s ↔ q.Says o s := by
  constructor
  · intro h
    cases q with
    | list | authors =>
      rcases o with reason | reason | items
      · simp [signal, query, answerDocuments, kind] at h
      · simp [signal, query, answerDocuments, kind, work, namesReply, Except.bind] at h
      · cases hc : collect id [] items with
        | error reason => simp [signal, query, answerDocuments, kind, work, namesReply, Except.bind, hc] at h
        | ok names =>
          obtain ⟨raw, rfl, hnames⟩ := collect_eq_ok.1 hc
          rw [List.nil_append, List.map_id] at hnames
          simp only [signal, query, answerDocuments, kind, work, namesReply, Except.bind, hc, Option.some.injEq] at h
          rw [← h, hnames]
          constructor
    | createAuthor =>
      rcases o with reason | reason | author
      · simp [signal, query, answerDocuments, kind] at h
      · simp [signal, query, answerDocuments, kind, work, namesReply, Except.map] at h
      · exact Option.some.inj h ▸ .createAuthor
    | dropDoc i | setDefaultAuthor author =>
      rcases o with reason | reason | done
      · simp [signal, query, answerDocuments, kind] at h
      · simp [signal, query, answerDocuments, kind, work, doneReply] at h
      · simp [signal, query, answerDocuments, kind, work, doneReply] at h
  · intro h
    cases h with
    | @list names | @authors names =>
      have hc : collect id [] (names.map .ok) = .ok names := collect_eq_ok.2 ⟨names, rfl, by simp⟩
      simp [signal, query, answerDocuments, kind, work, namesReply, Except.bind, hc]
    | createAuthor => rfl

namespace Inquiring

open Listening

variable {tree : Bool} {parse : Parse} {lossy : Bytes → String}

theorem expected_names (r : Except String (List String)) :
    expected .blobs (BlobQuery.namesAnswer r) = true ∧ expected .tags (BlobQuery.namesAnswer r) = true := by
  cases r with
  | ok names => exact ⟨rfl, rfl⟩
  | error reason => exact ⟨rfl, rfl⟩

theorem expected_status (r : Except String BlobStatus) : expected .status (BlobQuery.statusAnswer r) = true := by
  rcases r with reason | found | size | size <;> rfl

theorem expected_done (r : Except String Unit) : expected .mutation (BlobQuery.doneAnswer r) = true := by
  cases r with
  | ok done => rfl
  | error reason => rfl

/-- A query answers the question it was asked. -/
theorem query_expected (q : BlobQuery) (o : q.Outcome) : expected q.kind (q.query lossy o) = true := by
  cases q with
  | status hash => cases o with | error reason => rfl | ok r => exact expected_status r
  | list => cases o with | error reason => rfl | ok r => exact (expected_names r).1
  | tag hash name | untag name => cases o with | error reason => rfl | ok r => exact expected_done r
  | tags => cases o with | error reason => rfl | ok r => exact (expected_names _).2

theorem expected_namesReply (r : Except String (List String)) :
    expectedDocuments .documents (DocQuery.namesReply r) = true ∧
      expectedDocuments .authors (DocQuery.namesReply r) = true ∧
      expectedDocuments .newAuthor (DocQuery.namesReply r) = true := by
  cases r with
  | ok names => exact ⟨rfl, rfl, rfl⟩
  | error reason => exact ⟨rfl, rfl, rfl⟩

theorem expected_doneReply (r : Except String Unit) : expectedDocuments .mutation (DocQuery.doneReply r) = true := by
  cases r with
  | ok done => rfl
  | error reason => rfl

theorem query_expectedDocuments (q : DocQuery) (o : q.Outcome) : expectedDocuments q.kind (q.query o) = true := by
  cases q with
  | list => cases o with | error reason => rfl | ok r => exact (expected_namesReply _).1
  | authors => cases o with | error reason => rfl | ok r => exact (expected_namesReply _).2.1
  | createAuthor => cases o with | error reason => rfl | ok r => exact (expected_namesReply _).2.2
  | dropDoc i | setDefaultAuthor author => cases o with | error reason => rfl | ok r => exact expected_doneReply r

section
variable {κ K ε : Type} {ρ : κ → Type} {kind : κ → K} {about : κ → String} {query : (k : κ) → ρ k → ε}
  {l : List (Entry ρ)} {questions : List (Question K ε)}

/-- The questions kept are about what the entries that wait are about. -/
theorem map_questions (h : List.Forall₂ (Stands kind about query) l questions) :
    questions.map (fun q => (q.kind, q.about)) = l.map fun x => (kind x.what, about x.what) := by
  induction h with
  | nil => rfl
  | cons hR _ ih => rw [List.map_cons, List.map_cons, ih, hR.kind, hR.about]

theorem answers_stand {P : K → ε → Bool} (hP : ∀ k o, P (kind k) (query k o) = true)
    (h : List.Forall₂ (Stands kind about query) l questions) :
    ∀ q ∈ questions, ∀ a ∈ q.ask.queue, P q.kind a = true := by
  induction h with
  | nil => simp
  | @cons x q _ _ hR _ ih =>
    refine List.forall_mem_cons.2 ⟨fun a ha => ?_, ih⟩
    rw [hR.queue] at ha
    obtain ⟨o, -, rfl⟩ := Option.map_eq_some_iff.1 (Option.mem_toList.1 ha)
    rw [hR.kind]
    exact hP x.what o

end

/-- **Every question is accounted for.** In every run: the signals about the
blob store are, in some order, exactly one for each answer taken that calls
for one; the questions kept are those put and not yet taken, in the order they
were put; and no answer that waits is of another kind than its question. The
same of the document store. -/
theorem answers_accounted {as : List Act} {w : Inquiring} (h : Machine.run (step tree parse lossy) {} as = some w) :
    ((w.listened.endpoint.emitted.filter EndpointSignal.ofBlobs).Perm (told (BlobQuery.signal lossy) w.blobs) ∧
      (w.listened.endpoint.questions.map fun q => (q.kind, q.about)) =
        (waiting w.blobs).map (fun x => (x.what.kind, x.what.about)) ∧
      ∀ q ∈ w.listened.endpoint.questions, ∀ a ∈ q.ask.queue, expected q.kind a = true) ∧
    (w.listened.endpoint.emitted.filter EndpointSignal.ofDocuments).Perm (told DocQuery.signal w.documents) ∧
      (w.listened.endpoint.documentQuestions.map fun q => (q.kind, q.about)) =
        (waiting w.documents).map (fun x => (x.what.kind, x.what.about)) ∧
      ∀ q ∈ w.listened.endpoint.documentQuestions, ∀ a ∈ q.ask.queue, expectedDocuments q.kind a = true := by
  obtain ⟨hblobs, hdocuments⟩ := accounted_run h
  exact ⟨⟨hblobs.told, map_questions hblobs.questions, answers_stand query_expected hblobs.questions⟩,
    hdocuments.told, map_questions hdocuments.questions, answers_stand query_expectedDocuments hdocuments.questions⟩

/-- The blob store lists one hash; the runtime is stopped before the list of
authors comes. -/
def listAndLose : List Act :=
  [.call (.bind {}), .call (.bindTask (.send (.ok "id"))), .call (.drain []), .call (.request .blobList {}),
    .call (.request .authorList {}), .blobReply 0 .list (.ok (.ok ["h"])), .stop, .documentGo 0 true, .call (.drain [])]

/-- Every text is a hash and an id. -/
def anything : Parse where
  hash := fun _ => true
  id := fun _ => true
  author := fun _ => true

theorem answers_accounted_listAndLose :
    ∃ w, Machine.run (step true anything fun _ => "") {} listAndLose = some w ∧
      (w.listened.endpoint.emitted.filter EndpointSignal.ofBlobs).Perm [.blobList ["h"]] ∧
      (w.listened.endpoint.emitted.filter EndpointSignal.ofDocuments).Perm [] := by
  have hrun : ((Machine.run (step true anything fun _ => "") {} listAndLose).map fun w =>
      (told (BlobQuery.signal fun _ => "") w.blobs, told DocQuery.signal w.documents)) =
      some ([.blobList ["h"]], []) := by
    decide +kernel
  obtain ⟨w, hw, he⟩ := Option.map_eq_some_iff.1 hrun
  simp only [Prod.mk.injEq] at he
  obtain ⟨⟨hblobs, -⟩, hdocuments, -⟩ := answers_accounted hw
  exact ⟨w, hw, he.1 ▸ hblobs, he.2 ▸ hdocuments⟩

theorem mem_told {κ β : Type} {ρ : κ → Type} {f : (k : κ) → ρ k → Option β} {l : List (Entry ρ)} {b : β} :
    b ∈ told f l ↔ ∃ x ∈ l, ∃ o, x.fate = .taken o ∧ f x.what o = some b := by
  simp only [told, List.mem_filterMap, Option.bind_eq_some_iff]
  refine exists_congr fun x => and_congr_right fun _ => exists_congr fun o => and_congr_left fun _ => ?_
  cases x.fate with
  | asked | lost | answered => simp [Fate.outcome]
  | taken o' => simp [Fate.outcome]

/-- **Script is told what the store returned.** In every run, a signal about
either store was emitted if and only if the answer to some question was taken
and what the store returned to that very question says so: of a blob's status,
what the store holds of the hash asked about; of a listing, every item, none of
which was an error; and of a new author, the author made. -/
theorem signal_iff_said {as : List Act} {w : Inquiring} (h : Machine.run (step tree parse lossy) {} as = some w)
    (s : EndpointSignal) :
    (s.ofBlobs = true → (s ∈ w.listened.endpoint.emitted ↔
      ∃ x ∈ w.blobs, ∃ o, x.fate = .taken o ∧ x.what.Says lossy o s)) ∧
    (s.ofDocuments = true → (s ∈ w.listened.endpoint.emitted ↔
      ∃ x ∈ w.documents, ∃ o, x.fate = .taken o ∧ x.what.Says o s)) := by
  obtain ⟨hblobs, hdocuments⟩ := accounted_run h
  refine ⟨fun hs => ?_, fun hs => ?_⟩
  · simp only [← BlobQuery.signal_says]
    rw [← mem_told, ← hblobs.told.mem_iff]
    simp [talk, hs]
  · simp only [← DocQuery.signal_says]
    rw [← mem_told, ← hdocuments.told.mem_iff]
    simp [talk, hs]

theorem signal_iff_said_listAndLose : ∃ w, Machine.run (step true anything fun _ => "") {} listAndLose = some w ∧
    ∃ x ∈ w.blobs, ∃ o, x.fate = .taken o ∧ x.what.Says (fun _ => "") o (.blobList ["h"]) := by
  have hrun : ((Machine.run (step true anything fun _ => "") {} listAndLose).map fun w => w.listened.endpoint.emitted) =
      some [.bound "id", .blobList ["h"]] := by
    decide +kernel
  obtain ⟨w, hw, he⟩ := Option.map_eq_some_iff.1 hrun
  exact ⟨w, hw, ((signal_iff_said hw (.blobList ["h"])).1 rfl).1 (by simp [he])⟩

/-! ## Answers that can still come -/

section
variable {κ K ε β : Type} {ρ : κ → Type} {kind : κ → K} {about : κ → String} {query : (k : κ) → ρ k → ε}
  {f : (k : κ) → ρ k → Option β} {l : List (Entry ρ)} {questions : List (Question K ε)} {out : List β}
  {j : Nat} {x : Entry ρ}

/-- Nothing is answered by a task that is gone. -/
theorem reply_lost [DecidableEq κ] (h : Beside (Stands kind about query) f l questions out) (hj : l[j]? = some x)
    (hx : x.fate = .lost) {i : Nat} {k : κ} {o : ρ k} {y : List (Entry ρ) × List (Question K ε)}
    (hr : replyAt query l questions i k o = some y) : y.1[j]? = some x := by
  obtain ⟨z, hz, hr⟩ := Option.bind_eq_some_iff.1 hr
  split at hr
  · next hg =>
    obtain ⟨qs, hqs, rfl⟩ := Option.map_eq_some_iff.1 hr
    by_cases hij : i = j
    · subst hij
      obtain rfl := Option.some.inj (hj.symm.trans hz)
      obtain ⟨q, hq, hR, -⟩ := h.change hj hg.2
      simp [changeAt, hq, Question.move, Producer.move, hR.lost hx] at hqs
    · exact (List.getElem?_set_ne hij).trans hj
  · simp at hr

theorem go_lost (hj : l[j]? = some x) (hx : x.fate = .lost) {i : Nat} {dropped : Bool}
    {y : List (Entry ρ) × List (Question K ε)} (hr : goAt l questions i dropped = some y) : y.1[j]? = some x := by
  obtain ⟨z, hz, hr⟩ := Option.bind_eq_some_iff.1 hr
  split at hr
  · obtain ⟨qs, hqs, rfl⟩ := Option.map_eq_some_iff.1 hr
    by_cases hij : i = j
    · subst hij
      obtain rfl := Option.some.inj (hj.symm.trans hz)
      have hsame : (⟨x.what, x.fate.go⟩ : Entry ρ) = x := by
        obtain ⟨k, fate⟩ := x
        obtain rfl : fate = .lost := hx
        rfl
      dsimp only
      rw [hsame, List.getElem?_set_self (List.getElem?_eq_some_iff.1 hj).1]
    · exact (List.getElem?_set_ne hij).trans hj
  · simp at hr

theorem settle_lost (hj : l[j]? = some x) (hx : x.fate = .lost) : (settle l)[j]? = some x := by
  obtain ⟨k, fate⟩ := x
  obtain rfl : fate = .lost := hx
  rw [settle, List.getElem?_map, hj]
  rfl

theorem append_lost (hj : l[j]? = some x) (m : List (Entry ρ)) : (l ++ m)[j]? = some x := by
  rw [List.getElem?_append_left (List.getElem?_eq_some_iff.1 hj).1]
  exact hj

/-- A task that is there can answer. -/
theorem exists_reply [DecidableEq κ] (h : Beside (Stands kind about query) f l questions out) (hj : l[j]? = some x)
    (hx : x.fate = .asked) (o : ρ x.what) :
    ∃ qs, replyAt query l questions j x.what o = some (l.set j ⟨x.what, .answered o⟩, qs) := by
  have hopen : x.fate.isTaken = false := by rw [hx]; rfl
  obtain ⟨q, hq, hR, -⟩ := h.change hj hopen
  have hended : q.ask.ended = false := by rw [hR.ended, hx]; rfl
  refine ⟨questions.set (place l j) { q with ask := { q.ask with
    queue := q.ask.queue ++ [query x.what o], ended := true } }, ?_⟩
  simp [replyAt, hj, hopen, changeAt, hq, Question.move, Producer.move, hR.there hx, hended]

end

theorem record_lost {a : Listened.Action} {accepted : Bool} {w : Inquiring} {j : Nat} :
    (∀ x, w.blobs[j]? = some x → x.fate = .lost → (recordBlobs accepted w.blobs a)[j]? = some x) ∧
    ∀ x, w.documents[j]? = some x → x.fate = .lost → (recordDocuments accepted w.documents a)[j]? = some x := by
  cases a with
  | drain order => exact ⟨fun x hj hx => settle_lost hj hx, fun x hj hx => settle_lost hj hx⟩
  | request r now =>
    cases accepted with
    | true => exact ⟨fun x hj _ => append_lost hj _, fun x hj _ => append_lost hj _⟩
    | false => exact ⟨fun x hj _ => hj, fun x hj _ => hj⟩
  | _ => exact ⟨fun x hj _ => hj, fun x hj _ => hj⟩

/-- **One step** leaves a question that was lost as it is. -/
theorem lost_step {w w' : Inquiring} {a : Act} (h : w.Accounted lossy) (hs : w.step tree parse lossy a = some w')
    {j : Nat} : (∀ x, w.blobs[j]? = some x → x.fate = .lost → w'.blobs[j]? = some x) ∧
      ∀ x, w.documents[j]? = some x → x.fate = .lost → w'.documents[j]? = some x := by
  cases a with
  | call a =>
    simp only [step] at hs
    split at hs
    · simp at hs
    · obtain ⟨l, hl, rfl⟩ := Option.map_eq_some_iff.1 hs
      exact record_lost
  | stop =>
    obtain rfl := Option.some.inj hs
    exact ⟨fun x hj _ => hj, fun x hj _ => hj⟩
  | blobReply i q outcome =>
    obtain ⟨y, hy, rfl⟩ := Option.map_eq_some_iff.1 hs
    exact ⟨fun x hj hx => reply_lost h.blobs hj hx hy, fun x hj _ => hj⟩
  | blobGo i dropped =>
    obtain ⟨y, hy, rfl⟩ := Option.map_eq_some_iff.1 hs
    exact ⟨fun x hj hx => go_lost hj hx hy, fun x hj _ => hj⟩
  | documentReply i q outcome =>
    obtain ⟨y, hy, rfl⟩ := Option.map_eq_some_iff.1 hs
    exact ⟨fun x hj _ => hj, fun x hj hx => reply_lost h.documents hj hx hy⟩
  | documentGo i dropped =>
    obtain ⟨y, hy, rfl⟩ := Option.map_eq_some_iff.1 hs
    exact ⟨fun x hj _ => hj, fun x hj hx => go_lost hj hx hy⟩

theorem isEmpty_reply {κ K ε : Type} [DecidableEq κ] {ρ : κ → Type} {query : (k : κ) → ρ k → ε} {l : List (Entry ρ)}
    {questions : List (Question K ε)} {i : Nat} {k : κ} {o : ρ k} {y : List (Entry ρ) × List (Question K ε)}
    (hr : replyAt query l questions i k o = some y) : y.2.isEmpty = questions.isEmpty := by
  obtain ⟨z, hz, hr⟩ := Option.bind_eq_some_iff.1 hr
  split at hr
  · obtain ⟨qs, hqs, rfl⟩ := Option.map_eq_some_iff.1 hr
    exact Listened.changeAt_isEmpty hqs
  · simp at hr

theorem isEmpty_go {κ K ε : Type} {ρ : κ → Type} {l : List (Entry ρ)} {questions : List (Question K ε)} {i : Nat}
    {dropped : Bool} {y : List (Entry ρ) × List (Question K ε)} (hr : goAt l questions i dropped = some y) :
    y.2.isEmpty = questions.isEmpty := by
  obtain ⟨z, hz, hr⟩ := Option.bind_eq_some_iff.1 hr
  split at hr
  · obtain ⟨qs, hqs, rfl⟩ := Option.map_eq_some_iff.1 hr
    exact Listened.changeAt_isEmpty hqs
  · simp at hr

theorem ticks_step {w w' : Inquiring} {a : Act} (h : w.listened.endpoint.Ticks)
    (hs : w.step true parse lossy a = some w') : w'.listened.endpoint.Ticks := by
  cases a with
  | call a =>
    simp only [step] at hs
    split at hs
    · simp at hs
    · obtain ⟨l, hl, rfl⟩ := Option.map_eq_some_iff.1 hs
      exact Listened.step_ticks h hl
  | stop =>
    obtain rfl := Option.some.inj hs
    exact h.of_eq rfl (by simp [outstanding])
  | blobReply i q outcome =>
    obtain ⟨y, hy, rfl⟩ := Option.map_eq_some_iff.1 hs
    exact h.of_eq rfl (by simp only [outstanding, isEmpty_reply hy])
  | blobGo i dropped =>
    obtain ⟨y, hy, rfl⟩ := Option.map_eq_some_iff.1 hs
    exact h.of_eq rfl (by simp only [outstanding, isEmpty_go hy])
  | documentReply i q outcome =>
    obtain ⟨y, hy, rfl⟩ := Option.map_eq_some_iff.1 hs
    exact h.of_eq rfl (by simp only [outstanding, isEmpty_reply hy])
  | documentGo i dropped =>
    obtain ⟨y, hy, rfl⟩ := Option.map_eq_some_iff.1 hs
    exact h.of_eq rfl (by simp only [outstanding, isEmpty_go hy])

/-- A frame can always come. -/
theorem exists_drain (tree : Bool) (parse : Parse) (lossy : Bytes → String) (w : Inquiring) :
    ∃ a w', w.step tree parse lossy a = some w' ∧ w'.blobs = settle w.blobs ∧ w'.documents = settle w.documents := by
  let order := (w.listened.endpoint.drainBind tree).listeners.keys
  have hs : w.listened.step tree parse (.drain order) =
      some { w.listened with endpoint := w.listened.endpoint.drain tree order } := if_pos (.refl _)
  refine ⟨.call (.drain order), {
    listened := { w.listened with endpoint := w.listened.endpoint.drain tree order }
    blobs := settle w.blobs
    documents := settle w.documents }, ?_, rfl, rfl⟩
  simp only [step, ofTask, Bool.false_eq_true, if_false, hs]
  rfl

theorem settle_taken {κ : Type} {ρ : κ → Type} {l : List (Entry ρ)} {j : Nat} {k : κ} {o : ρ k}
    (hj : l[j]? = some ⟨k, .answered o⟩) : (settle l)[j]? = some ⟨k, .taken o⟩ := by
  rw [settle, List.getElem?_map, hj]
  rfl

theorem set_same {κ : Type} {ρ : κ → Type} {l : List (Entry ρ)} {j : Nat} {x : Entry ρ} (hj : l[j]? = some x)
    (y : Entry ρ) : (l.set j y)[j]? = some y := List.getElem?_set_self (List.getElem?_eq_some_iff.1 hj).1

/-- A question that is not lost can be answered, and then a frame comes. -/
theorem exists_answer {w : Inquiring} (h : w.Accounted lossy) {j : Nat} :
    (∀ x, w.blobs[j]? = some x → x.fate ≠ .lost → ∃ bs w', Machine.run (step tree parse lossy) w bs = some w' ∧
      ∃ o, w'.blobs[j]? = some ⟨x.what, .taken o⟩) ∧
    ∀ x, w.documents[j]? = some x → x.fate ≠ .lost → ∃ bs w', Machine.run (step tree parse lossy) w bs = some w' ∧
      ∃ o, w'.documents[j]? = some ⟨x.what, .taken o⟩ := by
  refine ⟨fun x hj hx => ?_, fun x hj hx => ?_⟩
  · obtain ⟨k, fate⟩ := x
    cases fate with
    | asked =>
      obtain ⟨qs, hr⟩ := exists_reply h.blobs hj rfl (.error "")
      obtain ⟨a, w', hs, hb, -⟩ := exists_drain tree parse lossy
        { w with blobs := w.blobs.set j ⟨k, .answered (.error "")⟩, listened.endpoint.questions := qs }
      refine ⟨[.blobReply j k (.error ""), a], w', ?_, .error "", hb ▸ settle_taken (set_same hj _)⟩
      exact Machine.run_cons.2 ⟨_, congrArg (Option.map _) hr, Machine.run_cons.2 ⟨w', hs, rfl⟩⟩
    | lost => exact absurd rfl hx
    | answered o =>
      obtain ⟨a, w', hs, hb, -⟩ := exists_drain tree parse lossy w
      exact ⟨[a], w', Machine.run_cons.2 ⟨w', hs, rfl⟩, o, hb ▸ settle_taken hj⟩
    | taken o => exact ⟨[], w, rfl, o, hj⟩
  · obtain ⟨k, fate⟩ := x
    cases fate with
    | asked =>
      obtain ⟨qs, hr⟩ := exists_reply h.documents hj rfl (.error "")
      obtain ⟨a, w', hs, -, hd⟩ := exists_drain tree parse lossy
        { w with documents := w.documents.set j ⟨k, .answered (.error "")⟩, listened.endpoint.documentQuestions := qs }
      refine ⟨[.documentReply j k (.error ""), a], w', ?_, .error "", hd ▸ settle_taken (set_same hj _)⟩
      exact Machine.run_cons.2 ⟨_, congrArg (Option.map _) hr, Machine.run_cons.2 ⟨w', hs, rfl⟩⟩
    | lost => exact absurd rfl hx
    | answered o =>
      obtain ⟨a, w', hs, -, hd⟩ := exists_drain tree parse lossy w
      exact ⟨[a], w', Machine.run_cons.2 ⟨w', hs, rfl⟩, o, hd ▸ settle_taken hj⟩
    | taken o => exact ⟨[], w, rfl, o, hj⟩

theorem lost_run {w w' : Inquiring} {bs : List Act} (h : w.Accounted lossy)
    (hs : Machine.run (step tree parse lossy) w bs = some w') {j : Nat} :
    (∀ x, w.blobs[j]? = some x → x.fate = .lost → w'.blobs[j]? = some x) ∧
      ∀ x, w.documents[j]? = some x → x.fate = .lost → w'.documents[j]? = some x := by
  refine (Machine.run_invariant (I := fun v => v.Accounted lossy ∧
    (∀ x, w.blobs[j]? = some x → x.fate = .lost → v.blobs[j]? = some x) ∧
    ∀ x, w.documents[j]? = some x → x.fate = .lost → v.documents[j]? = some x) (fun v a v' hv hva => ?_) hs
    ⟨h, fun _ hj _ => hj, fun _ hj _ => hj⟩).2
  obtain ⟨hacc, hblobs, hdocuments⟩ := hv
  have hlost := lost_step (j := j) hacc hva
  exact ⟨accounted_step hacc hva, fun x hj hx => hlost.1 x (hblobs x hj hx) hx,
    fun x hj hx => hlost.2 x (hdocuments x hj hx) hx⟩

theorem ne_nil_of_lost {κ τ : Type} {ρ : κ → Type} {R : Entry ρ → τ → Prop} {l : List (Entry ρ)} {questions : List τ}
    (h : List.Forall₂ R (waiting l) questions) {x : Entry ρ} (hm : x ∈ l) (hx : x.fate = .lost) :
    questions.isEmpty = false := by
  have hw : x ∈ waiting l := List.mem_filter.2 ⟨hm, by rw [hx]; rfl⟩
  have hlen := h.length_eq
  cases questions with
  | nil => simp [List.eq_nil_of_length_eq_zero hlen] at hw
  | cons => rfl

/-- **Answers that can still come.** With a scene tree, at every point of every
run: the answer to a question can still be taken, or has been, if and only if
its task has not gone without one (nor was never there); and once it has, the
question is never answered and the endpoint is subscribed to every frame from
then on, closed or not. -/
theorem answered_iff {as : List Act} {w : Inquiring} (h : Machine.run (step true parse lossy) {} as = some w)
    (j : Nat) :
    (∀ x, w.blobs[j]? = some x →
      ((∃ bs w', Machine.run (step true parse lossy) w bs = some w' ∧ ∃ o, w'.blobs[j]? = some ⟨x.what, .taken o⟩) ↔
        x.fate ≠ .lost) ∧
      (x.fate = .lost → ∀ bs w', Machine.run (step true parse lossy) w bs = some w' →
        w'.listened.endpoint.ticking = true)) ∧
    ∀ x, w.documents[j]? = some x →
      ((∃ bs w', Machine.run (step true parse lossy) w bs = some w' ∧
          ∃ o, w'.documents[j]? = some ⟨x.what, .taken o⟩) ↔ x.fate ≠ .lost) ∧
      (x.fate = .lost → ∀ bs w', Machine.run (step true parse lossy) w bs = some w' →
        w'.listened.endpoint.ticking = true) := by
  have hacc := accounted_run h
  have hticks : ∀ bs w', Machine.run (step true parse lossy) w bs = some w' →
      w'.listened.endpoint.ticking = w'.listened.endpoint.outstanding := fun bs w' hs =>
    Machine.run_invariant (I := fun w => w.listened.endpoint.Ticks) (fun _ _ _ hw ha => ticks_step hw ha)
      (Machine.run_append.2 ⟨w, h, hs⟩) rfl
  have hlater : ∀ bs w', Machine.run (step true parse lossy) w bs = some w' → w'.Accounted lossy := fun bs w' hs =>
    accounted_run (Machine.run_append.2 ⟨w, h, hs⟩)
  refine ⟨fun x hj => ⟨⟨fun ⟨bs, w', hs, o, ho⟩ hx => ?_, (exists_answer hacc).1 x hj⟩, fun hx bs w' hs => ?_⟩,
    fun x hj => ⟨⟨fun ⟨bs, w', hs, o, ho⟩ hx => ?_, (exists_answer hacc).2 x hj⟩, fun hx bs w' hs => ?_⟩⟩
  · have hsame := ((lost_run hacc hs).1 x hj hx).symm.trans ho
    rw [Option.some.injEq] at hsame
    rw [hsame] at hx
    simp at hx
  · have hm := List.mem_of_getElem? ((lost_run hacc hs).1 x hj hx)
    have hne := ne_nil_of_lost (hlater bs w' hs).blobs.questions hm hx
    rw [hticks bs w' hs]
    simp only [talk] at hne
    simp [outstanding, hne]
  · have hsame := ((lost_run hacc hs).2 x hj hx).symm.trans ho
    rw [Option.some.injEq] at hsame
    rw [hsame] at hx
    simp at hx
  · have hm := List.mem_of_getElem? ((lost_run hacc hs).2 x hj hx)
    have hne := ne_nil_of_lost (hlater bs w' hs).documents.questions hm hx
    rw [hticks bs w' hs]
    simp only [talk] at hne
    simp [outstanding, hne]

theorem answered_iff_listAndLose : ∃ w, Machine.run (step true anything fun _ => "") {} listAndLose = some w ∧
    ∃ x, w.documents[0]? = some x ∧ x.what = .authors ∧ ∀ bs w',
      Machine.run (step true anything fun _ => "") w bs = some w' → w'.listened.endpoint.ticking = true := by
  have hrun : ((Machine.run (step true anything fun _ => "") {} listAndLose).map fun w =>
      w.documents[0]?.map fun x => (x.what, x.fate.isLost)) = some (some (.authors, true)) := by
    decide +kernel
  obtain ⟨w, hw, he⟩ := Option.map_eq_some_iff.1 hrun
  obtain ⟨x, hx, he⟩ := Option.map_eq_some_iff.1 he
  simp only [Prod.mk.injEq] at he
  exact ⟨w, hw, x, hx, he.1, ((answered_iff hw 0).2 x hx).2 (Fate.isLost_iff.1 he.2)⟩

end Inquiring
end Gdiroh.Endpoint
