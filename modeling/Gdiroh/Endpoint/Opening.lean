/-
How the blob store and the document engine of an endpoint are opened
(`blobs.rs`, `docs.rs`). Each is in a cell that the first to come fills, in a
task of its own, while the others wait. The engine is started on the store, so
whoever starts it calls for the store as well, and so does a document's task
once it is open.

`opened_once`: a store is opened once at most, and whatever comes of it, good
or bad, is the same for all and for good. Nobody tries again. And so the store
is there for every document that is open (`opened_has_store`); the failure that
its task provides for there never happens.

The operations and the documents are `Endpoint.Actors`' tasks. Questions, and
the connections a protocol serves, are here only by their calls. A task that
was not spawned calls for nothing.
-/
import Gdiroh.Endpoint.Actors
import Gdiroh.Lib.Once

namespace Gdiroh.Endpoint

/-- A blob operation, and its call of `StoreHandle::ready` or `open`. -/
structure Transferring where
  caller : Nat
  task : TransferTask

/-- A document, with its call of `DocsHandle::open` and the one of
`StoreHandle::open` after it has subscribed. -/
structure Documenting where
  caller : Nat
  again : Option Nat := none
  task : DocumentTask

/-- The cells, by how many were opened before. An engine goes by its store. -/
structure Opening where
  store : Once.Cell (Except String Nat) := {}
  docs : Once.Cell (Except String Nat) := {}
  /-- The call for the store of whoever starts the engine. -/
  starting : Option Nat := none
  transfers : List Transferring := []
  documents : List Documenting := []

namespace Opening

inductive Act where
  | transfer (work : Work)
  | document (source : Source)
  /-- A question to the blob store, or a connection to be served. -/
  | call
  /-- The same for documents. -/
  | callDocs
  /-- One that waits for the store has its turn. -/
  | turn (i : Nat)
  /-- `FsStore::load` or `MemStore::new`. -/
  | opened (outcome : Except String Unit)
  /-- One that waits for the engine has its turn. -/
  | turnDocs (i : Nat)
  /-- `Docs::spawn`. -/
  | started (outcome : Except String Unit)
  | transferOpened (k : Nat)
  | transferTask (k : Nat) (a : TransferTask.Act)
  | transferAbandon (k : Nat)
  | documentEngine (k : Nat)
  | documentStore (k : Nat)
  | documentTask (k : Nat) (a : DocumentTask.Act)
  | documentAbandon (k : Nat)
  /-- A question or a connection is dropped. -/
  | leave (i : Nat)
  | leaveDocs (i : Nat)

/-- What the store's cell is filled with. -/
def storeOutcome (n : Nat) : Except String Unit → Except String Nat
  | .ok _ => .ok n
  | .error err => .error ("could not open the blob store: " ++ err)

/-- What the engine's cell is filled with, after the call for the store. -/
def engineOutcome : Except String Nat → Except String Unit → Except String Nat
  | .error err, _ => .error err
  | .ok s, .ok _ => .ok s
  | .ok _, .error err => .error ("could not start documents: " ++ err)

/-- The acts of an operation that have nothing to do with the cell. -/
def later : TransferTask.Act → Bool
  | .opened _ | .abandon => false
  | _ => true

/-- The acts of a document that have nothing to do with the cells. -/
def apart : DocumentTask.Act → Bool
  | .engine _ | .store _ | .abandon => false
  | _ => true

def setTransfer (o : Opening) (k : Nat) (x : Transferring) : Opening := { o with transfers := o.transfers.set k x }

def setDocument (o : Opening) (k : Nat) (x : Documenting) : Opening := { o with documents := o.documents.set k x }

/-- A call for the engine is dropped, and with it the start it was about. -/
def letGoDocs (o : Opening) (i : Nat) : Opening :=
  if o.docs.making = some i then
    { o with
      docs := o.docs.letGo i
      store := o.starting.elim o.store o.store.letGo
      starting := none }
  else { o with docs := o.docs.letGo i }

/-- `path` is where the store is kept; the one in memory is always opened. -/
def step (path : Option String) (o : Opening) : Act → Option Opening
  | .transfer work => some { o with
      store := o.store.called
      transfers := o.transfers ++ [⟨o.store.callers.length, .spawn work true⟩] }
  | .document source => some { o with
      docs := o.docs.called
      documents := o.documents ++ [{ caller := o.docs.callers.length, task := .spawn source true }] }
  | .call => some { o with store := o.store.called }
  | .callDocs => some { o with docs := o.docs.called }
  | .turn i => (o.store.step (.turn i)).map fun c => { o with store := c }
  | .opened outcome =>
    if path = none ∧ ¬ outcome.isOk then none
    else o.store.making.bind fun i =>
      (o.store.step (.make i (storeOutcome o.store.made.length outcome))).map fun c => { o with store := c }
  | .turnDocs i =>
    (o.docs.step (.turn i)).map fun c =>
      if c.making.isSome then { o with docs := c, store := o.store.called, starting := some o.store.callers.length }
      else { o with docs := c }
  | .started outcome =>
    match o.docs.making, o.starting.bind fun j => o.store.callers[j]? with
    | some i, some (.got r) =>
      (o.docs.step (.make i (engineOutcome r outcome))).map fun c => { o with docs := c, starting := none }
    | _, _ => none
  | .transferOpened k =>
    match o.transfers[k]? with
    | none => none
    | some x =>
      match o.store.callers[x.caller]? with
      | some (.got r) =>
        (x.task.step (.opened (r.map fun _ => ()))).map fun t => o.setTransfer k { x with task := t }
      | _ => none
  | .transferTask k a =>
    match o.transfers[k]? with
    | none => none
    | some x => if later a then (x.task.step a).map fun t => o.setTransfer k { x with task := t } else none
  | .transferAbandon k =>
    match o.transfers[k]? with
    | none => none
    | some x => (x.task.step .abandon).map fun t =>
        { o.setTransfer k { x with task := t } with store := o.store.letGo x.caller }
  | .documentEngine k =>
    match o.documents[k]? with
    | none => none
    | some x =>
      match o.docs.callers[x.caller]? with
      | some (.got r) =>
        (x.task.step (.engine (r.map fun _ => ()))).map fun t => o.setDocument k { x with task := t }
      | _ => none
  | .documentStore k =>
    match o.documents[k]? with
    | none => none
    | some x =>
      match x.again.bind fun j => o.store.callers[j]? with
      | some (.got r) =>
        (x.task.step (.store (r.map fun _ => ()))).map fun t => o.setDocument k { x with task := t }
      | _ => none
  | .documentTask k a =>
    match o.documents[k]? with
    | none => none
    | some x =>
      if apart a then
        (x.task.step a).map fun t =>
          -- It has subscribed, and calls for the store.
          if x.task.phase = .subscribing ∧ t.phase = .store then
            { o.setDocument k { x with task := t, again := some o.store.callers.length } with store := o.store.called }
          else o.setDocument k { x with task := t }
      else none
  | .documentAbandon k =>
    match o.documents[k]? with
    | none => none
    | some x => (x.task.step .abandon).map fun t =>
        let o := (o.setDocument k { x with task := t }).letGoDocs x.caller
        { o with store := x.again.elim o.store o.store.letGo }
  | .leave i =>
    if o.transfers.all (·.caller ≠ i) ∧ o.documents.all (·.again ≠ some i) ∧ o.starting ≠ some i then
      some { o with store := o.store.letGo i }
    else none
  | .leaveDocs i => if o.documents.all (·.caller ≠ i) then some (o.letGoDocs i) else none

/-! ## One store and one engine -/

/-- An operation waits for the store, or has given up, or got it, or failed
because nobody could. -/
def Fits (value : Option (Except String Nat)) (t : TransferTask) : Prop :=
  (t.phase = .opening ∨ t.phase = .abandoned) ∧ t.sent = [] ∨ (∃ s, value = some (.ok s)) ∨
    ∃ err, value = some (.error err) ∧ t.phase = .done ∧ t.sent = [.failed err]

/-- The same of a document and the engine. -/
def FitsDoc (value : Option (Except String Nat)) (t : DocumentTask) : Prop :=
  (t.phase = .engine ∨ t.phase = .ended) ∧ t.sent = [] ∨ (∃ s, value = some (.ok s)) ∨
    ∃ err, value = some (.error err) ∧ t.phase = .ended ∧ t.sent = [.closed err]

structure Shared (path : Option String) (o : Opening) : Prop where
  store : o.store.Sound
  docs : o.docs.Sound
  memory : path = none → ∀ err, o.store.value ≠ some (.error err)
  /-- The engine is what comes of the store. -/
  built : ∀ r, o.docs.value = some r → ∃ v outcome, o.store.value = some v ∧ r = engineOutcome v outcome
  transfers : ∀ x ∈ o.transfers, Fits o.store.value x.task
  documents : ∀ x ∈ o.documents, FitsDoc o.docs.value x.task
  again : ∀ x ∈ o.documents, x.again.isSome = true → ∃ s, o.docs.value = some (.ok s)

theorem shared_init {path : Option String} : Shared path {} :=
  ⟨Once.Cell.sound_empty, Once.Cell.sound_empty, by simp, by simp, by simp, by simp, by simp⟩

theorem Fits.keeps {c c' : Once.Cell (Except String Nat)} {t : TransferTask} (h : Fits c.value t) (hk : c.Keeps c') :
    Fits c'.value t := by
  rcases h with h | ⟨s, hs⟩ | ⟨err, he, h⟩
  · exact .inl h
  · exact .inr (.inl ⟨s, hk _ hs⟩)
  · exact .inr (.inr ⟨err, hk _ he, h⟩)

theorem FitsDoc.keeps {c c' : Once.Cell (Except String Nat)} {t : DocumentTask} (h : FitsDoc c.value t)
    (hk : c.Keeps c') : FitsDoc c'.value t := by
  rcases h with h | ⟨s, hs⟩ | ⟨err, he, h⟩
  · exact .inl h
  · exact .inr (.inl ⟨s, hk _ hs⟩)
  · exact .inr (.inr ⟨err, hk _ he, h⟩)

/-- What an operation does before and after it has come to the cell. -/
theorem Fits.later {value : Option (Except String Nat)} {t t' : TransferTask} {a : TransferTask.Act}
    (h : Fits value t) (ha : later a = true) (hs : t.step a = some t') : Fits value t' := by
  rcases h with ⟨hphase, -⟩ | hok | ⟨err, -, hdone, -⟩
  · cases a with
    | opened | abandon => simp [Opening.later] at ha
    | started | item | kept | read => rcases hphase with hp | hp <;> simp [TransferTask.step, hp] at hs
  · exact .inr (.inl hok)
  · cases a with
    | opened | abandon => simp [Opening.later] at ha
    | started | item | kept | read => simp [TransferTask.step, hdone] at hs

theorem Fits.opened {value : Option (Except String Nat)} {t t' : TransferTask} {r : Except String Nat}
    (h : Fits value t) (hr : value = some r) (hs : t.step (.opened (r.map fun _ => ())) = some t') : Fits value t' := by
  have hphase : t.phase = .opening := by
    by_contra hp
    simp [TransferTask.step, hp] at hs
  cases r with
  | ok s => exact .inr (.inl ⟨s, hr⟩)
  | error err =>
    have hsent : t.sent = [] := by
      rcases h with ⟨-, hsent⟩ | ⟨s, hs'⟩ | ⟨-, -, hdone, -⟩
      · exact hsent
      · simp [hr] at hs'
      · simp [hphase] at hdone
    change (if t.phase = .opening then some (t.fail err) else none) = some t' at hs
    rw [if_pos hphase] at hs
    obtain rfl := Option.some.inj hs
    exact .inr (.inr ⟨err, hr, rfl, by simp [TransferTask.fail, TransferTask.emit, hsent]⟩)

theorem Fits.abandon {value : Option (Except String Nat)} {t t' : TransferTask} (h : Fits value t)
    (hs : t.step .abandon = some t') : Fits value t' := by
  simp only [TransferTask.step] at hs
  split at hs
  · simp at hs
  · next hgoing =>
    obtain rfl := Option.some.inj hs
    rcases h with ⟨-, hsent⟩ | hok | ⟨-, -, hdone, -⟩
    · exact .inl ⟨.inr rfl, hsent⟩
    · exact .inr (.inl hok)
    · exact absurd (.inl hdone) hgoing

theorem FitsDoc.apart {value : Option (Except String Nat)} {t t' : DocumentTask} {a : DocumentTask.Act}
    (h : FitsDoc value t) (ha : apart a = true) (hs : t.step a = some t') : FitsDoc value t' := by
  -- A task that waits or has ended takes commands, and its handle may go.
  have hstill : t.phase = .engine ∨ t.phase = .ended → t'.phase = t.phase ∧ t'.sent = t.sent := by
    intro hphase
    cases a with
    | engine | store | abandon => simp [Opening.apart] at ha
    | document | author | subscribed | command | update | closed =>
      rcases hphase with hp | hp <;> simp [DocumentTask.step, hp] at hs
    | order command =>
      simp only [DocumentTask.step] at hs
      split at hs
      · obtain rfl := Option.some.inj hs
        exact ⟨rfl, rfl⟩
      · simp at hs
    | drop =>
      obtain rfl := Option.some.inj hs
      exact ⟨rfl, rfl⟩
  rcases h with ⟨hphase, hsent⟩ | hok | ⟨err, he, hended, hsent⟩
  · obtain ⟨hp, hs'⟩ := hstill hphase
    exact .inl ⟨hp.symm ▸ hphase, hs'.trans hsent⟩
  · exact .inr (.inl hok)
  · obtain ⟨hp, hs'⟩ := hstill (.inr hended)
    exact .inr (.inr ⟨err, he, hp.trans hended, hs'.trans hsent⟩)

theorem FitsDoc.engine {value : Option (Except String Nat)} {t t' : DocumentTask} {r : Except String Nat}
    (h : FitsDoc value t) (hr : value = some r) (hs : t.step (.engine (r.map fun _ => ())) = some t') :
    FitsDoc value t' := by
  have hphase : t.phase = .engine := by
    by_contra hp
    simp [DocumentTask.step, hp] at hs
  cases r with
  | ok s => exact .inr (.inl ⟨s, hr⟩)
  | error err =>
    have hsent : t.sent = [] := by
      rcases h with ⟨-, hsent⟩ | ⟨s, hs'⟩ | ⟨-, -, hended, -⟩
      · exact hsent
      · simp [hr] at hs'
      · simp [hphase] at hended
    change (if t.phase = .engine then some (t.fail err) else none) = some t' at hs
    rw [if_pos hphase] at hs
    obtain rfl := Option.some.inj hs
    exact .inr (.inr ⟨err, hr, rfl, by simp [DocumentTask.fail, DocumentTask.emit, hsent]⟩)

theorem FitsDoc.abandon {value : Option (Except String Nat)} {t t' : DocumentTask} (h : FitsDoc value t)
    (hs : t.step .abandon = some t') : FitsDoc value t' := by
  simp only [DocumentTask.step] at hs
  split at hs
  · simp at hs
  · next hgoing =>
    obtain rfl := Option.some.inj hs
    rcases h with ⟨-, hsent⟩ | hok | ⟨-, -, hended, -⟩
    · exact .inl ⟨.inr rfl, hsent⟩
    · exact .inr (.inl hok)
    · exact absurd hended hgoing

namespace Shared

variable {path : Option String} {o o' : Opening}

/-- Something has happened at the store's cell. -/
theorem onStore (h : Shared path o) {c : Once.Cell (Except String Nat)} {starting : Option Nat} (hsound : c.Sound)
    (hk : o.store.Keeps c) (hmemory : path = none → ∀ err, c.value ≠ some (.error err)) :
    Shared path { o with store := c, starting := starting } where
  store := hsound
  docs := h.docs
  memory := hmemory
  built r hr := by
    obtain ⟨v, outcome, hv, he⟩ := h.built r hr
    exact ⟨v, outcome, hk v hv, he⟩
  transfers x hx := (h.transfers x hx).keeps hk
  documents := h.documents
  again := h.again

theorem letGo (h : Shared path o) (i : Nat) : Shared path { o with store := o.store.letGo i } := by
  have hv := Once.Cell.letGo_value o.store i
  refine h.onStore (h.store.letGo i) (fun v => ?_) (fun hp err => ?_)
  · rw [hv]
    exact id
  · rw [hv]
    exact h.memory hp err

theorem called (h : Shared path o) (starting : Option Nat) :
    Shared path { o with store := o.store.called, starting := starting } :=
  h.onStore h.store.called (fun _ => id) h.memory

/-- Something has happened at the engine's cell. -/
theorem onDocs (h : Shared path o) {c : Once.Cell (Except String Nat)} {starting : Option Nat} (hsound : c.Sound)
    (hk : o.docs.Keeps c)
    (hbuilt : ∀ r, c.value = some r → ∃ v outcome, o.store.value = some v ∧ r = engineOutcome v outcome) :
    Shared path { o with docs := c, starting := starting } where
  store := h.store
  docs := hsound
  memory := h.memory
  built := hbuilt
  transfers := h.transfers
  documents x hx := (h.documents x hx).keeps hk
  again x hx ha := (h.again x hx ha).imp fun _ hs => hk _ hs

theorem letGoDocs (h : Shared path o) (i : Nat) : Shared path (o.letGoDocs i) := by
  have hv := Once.Cell.letGo_value o.docs i
  have hdocs : ∀ starting, Shared path { o with docs := o.docs.letGo i, starting := starting } := by
    intro starting
    refine h.onDocs (h.docs.letGo i) (fun v => ?_) (fun r hr => ?_)
    · rw [hv]
      exact id
    · rw [hv] at hr
      exact h.built r hr
  unfold Opening.letGoDocs
  split
  · cases hj : o.starting with
    | none => exact hdocs none
    | some j => exact (hdocs none).letGo j
  · exact hdocs o.starting

theorem setTransfer (h : Shared path o) (k : Nat) {x : Transferring} (hx : Fits o.store.value x.task) :
    Shared path (o.setTransfer k x) where
  store := h.store
  docs := h.docs
  memory := h.memory
  built := h.built
  transfers y hy := (List.mem_or_eq_of_mem_set hy).elim (h.transfers y) fun he => he ▸ hx
  documents := h.documents
  again := h.again

theorem setDocument (h : Shared path o) (k : Nat) {x : Documenting} (hx : FitsDoc o.docs.value x.task)
    (ha : x.again.isSome = true → ∃ s, o.docs.value = some (.ok s)) : Shared path (o.setDocument k x) where
  store := h.store
  docs := h.docs
  memory := h.memory
  built := h.built
  transfers := h.transfers
  documents y hy := (List.mem_or_eq_of_mem_set hy).elim (h.documents y) fun he => he ▸ hx
  again y hy := (List.mem_or_eq_of_mem_set hy).elim (h.again y) fun he => he ▸ ha

end Shared

theorem shared_step {path : Option String} {o o' : Opening} {a : Act} (h : Shared path o)
    (hs : o.step path a = some o') : Shared path o' := by
  cases a with
  | transfer work =>
    obtain rfl := Option.some.inj hs
    have hcalled := h.called o.starting
    refine ⟨hcalled.store, h.docs, hcalled.memory, hcalled.built, fun x hx => ?_, h.documents, h.again⟩
    rcases List.mem_append.1 hx with hx | hx
    · exact h.transfers x hx
    · rw [List.mem_singleton.1 hx]
      exact .inl ⟨.inl rfl, rfl⟩
  | document source =>
    obtain rfl := Option.some.inj hs
    refine ⟨h.store, h.docs.called, h.memory, h.built, h.transfers, fun x hx => ?_, fun x hx ha => ?_⟩
    · rcases List.mem_append.1 hx with hx | hx
      · exact h.documents x hx
      · rw [List.mem_singleton.1 hx]
        exact .inl ⟨.inl rfl, rfl⟩
    · rcases List.mem_append.1 hx with hx | hx
      · exact h.again x hx ha
      · rw [List.mem_singleton.1 hx] at ha
        simp at ha
  | call =>
    obtain rfl := Option.some.inj hs
    exact h.called o.starting
  | callDocs =>
    obtain rfl := Option.some.inj hs
    exact h.onDocs h.docs.called (fun _ => id) h.built
  | turn i =>
    obtain ⟨c, hc, rfl⟩ := Option.map_eq_some_iff.1 hs
    refine h.onStore (h.store.step hc) (h.store.keeps hc) fun hp err => ?_
    rw [Once.Cell.turn_value hc]
    exact h.memory hp err
  | opened outcome =>
    simp only [step] at hs
    split at hs
    · simp at hs
    · next hpath =>
      obtain ⟨i, -, hs⟩ := Option.bind_eq_some_iff.1 hs
      obtain ⟨c, hc, rfl⟩ := Option.map_eq_some_iff.1 hs
      refine h.onStore (h.store.step hc) (h.store.keeps hc) fun hp err => ?_
      rw [Once.Cell.make_value hc]
      cases outcome with
      | ok _ => simp [storeOutcome]
      | error _ => exact absurd ⟨hp, by simp [Except.isOk, Except.toBool]⟩ hpath
  | turnDocs i =>
    obtain ⟨c, hc, rfl⟩ := Option.map_eq_some_iff.1 hs
    have hv := Once.Cell.turn_value hc
    have hdocs : ∀ starting, Shared path { o with docs := c, starting := starting } :=
      fun starting => h.onDocs (h.docs.step hc) (h.docs.keeps hc) fun r hr => h.built r (hv ▸ hr)
    split
    · exact (hdocs o.starting).called _
    · exact hdocs o.starting
  | started outcome =>
    simp only [step] at hs
    split at hs
    · next i r hi hr =>
      obtain ⟨c, hc, rfl⟩ := Option.map_eq_some_iff.1 hs
      obtain ⟨j, -, hj⟩ := Option.bind_eq_some_iff.1 hr
      refine h.onDocs (h.docs.step hc) (h.docs.keeps hc) fun r' hr' => ?_
      rw [Once.Cell.make_value hc] at hr'
      exact ⟨r, outcome, h.store.shared j r hj, (Option.some.inj hr').symm⟩
    · simp at hs
  | transferOpened k =>
    simp only [step] at hs
    split at hs
    · simp at hs
    next x hx =>
      split at hs
      · next r hr =>
        obtain ⟨t, ht, rfl⟩ := Option.map_eq_some_iff.1 hs
        have hfits := h.transfers x (List.mem_of_getElem? hx)
        exact h.setTransfer k (hfits.opened (h.store.shared _ r hr) ht)
      · simp at hs
  | transferTask k a =>
    simp only [step] at hs
    split at hs
    · simp at hs
    next x hx =>
      split at hs
      · next ha =>
        obtain ⟨t, ht, rfl⟩ := Option.map_eq_some_iff.1 hs
        exact h.setTransfer k ((h.transfers x (List.mem_of_getElem? hx)).later ha ht)
      · simp at hs
  | transferAbandon k =>
    simp only [step] at hs
    split at hs
    · simp at hs
    next x hx =>
      obtain ⟨t, ht, rfl⟩ := Option.map_eq_some_iff.1 hs
      exact (h.setTransfer k ((h.transfers x (List.mem_of_getElem? hx)).abandon ht)).letGo x.caller
  | documentEngine k =>
    simp only [step] at hs
    split at hs
    · simp at hs
    next x hx =>
      split at hs
      · next r hr =>
        obtain ⟨t, ht, rfl⟩ := Option.map_eq_some_iff.1 hs
        have hmem := List.mem_of_getElem? hx
        exact h.setDocument k ((h.documents x hmem).engine (h.docs.shared _ r hr) ht) (h.again x hmem)
      · simp at hs
  | documentStore k =>
    simp only [step] at hs
    split at hs
    · simp at hs
    next x hx =>
      split at hs
      · next r hr =>
        obtain ⟨t, ht, rfl⟩ := Option.map_eq_some_iff.1 hs
        obtain ⟨j, hj, -⟩ := Option.bind_eq_some_iff.1 hr
        have hok := h.again x (List.mem_of_getElem? hx) (by simp [hj])
        exact h.setDocument k (.inr (.inl hok)) fun _ => hok
      · simp at hs
  | documentTask k a =>
    simp only [step] at hs
    split at hs
    · simp at hs
    next x hx =>
      split at hs
      · next ha =>
        obtain ⟨t, ht, rfl⟩ := Option.map_eq_some_iff.1 hs
        have hmem := List.mem_of_getElem? hx
        have hfits := h.documents x hmem
        split
        · next hsubscribed =>
          have hok : ∃ s, o.docs.value = some (.ok s) := by
            rcases hfits with ⟨hphase, -⟩ | hok | ⟨-, -, hended, -⟩
            · simp [hsubscribed.1] at hphase
            · exact hok
            · simp [hsubscribed.1] at hended
          exact (h.setDocument k (.inr (.inl hok)) fun _ => hok).called o.starting
        · exact h.setDocument k (hfits.apart ha ht) (h.again x hmem)
      · simp at hs
  | documentAbandon k =>
    simp only [step] at hs
    split at hs
    · simp at hs
    next x hx =>
      obtain ⟨t, ht, rfl⟩ := Option.map_eq_some_iff.1 hs
      have hmem := List.mem_of_getElem? hx
      have hgone := (h.setDocument (x := { x with task := t }) k ((h.documents x hmem).abandon ht)
        (h.again x hmem)).letGoDocs x.caller
      generalize (o.setDocument k { x with task := t }).letGoDocs x.caller = o' at hgone
      cases x.again with
      | none => exact hgone
      | some j => exact hgone.letGo j
  | leave i =>
    simp only [step] at hs
    split at hs
    · obtain rfl := Option.some.inj hs
      exact h.letGo i
    · simp at hs
  | leaveDocs i =>
    simp only [step] at hs
    split at hs
    · obtain rfl := Option.some.inj hs
      exact h.letGoDocs i
    · simp at hs

/-- What fills a cell stays in it. -/
def Keeps (o o' : Opening) : Prop := o.store.Keeps o'.store ∧ o.docs.Keeps o'.docs

theorem letGo_keeps {c : Once.Cell (Except String Nat)} (i : Nat) : c.Keeps (c.letGo i) := by
  intro v hv
  rw [Once.Cell.letGo_value]
  exact hv

theorem letGoDocs_keeps (o : Opening) (i : Nat) : o.Keeps (o.letGoDocs i) := by
  unfold letGoDocs
  split
  · cases o.starting with
    | none => exact ⟨.refl _, letGo_keeps i⟩
    | some j => exact ⟨letGo_keeps j, letGo_keeps i⟩
  · exact ⟨.refl _, letGo_keeps i⟩

theorem step_keeps {path : Option String} {o o' : Opening} {a : Act} (h : Shared path o)
    (hs : o.step path a = some o') : o.Keeps o' := by
  have hsame : o.Keeps o := ⟨.refl _, .refl _⟩
  cases a with
  | transfer | document | call | callDocs =>
    obtain rfl := Option.some.inj hs
    exact hsame
  | turn i =>
    obtain ⟨c, hc, rfl⟩ := Option.map_eq_some_iff.1 hs
    exact ⟨h.store.keeps hc, .refl _⟩
  | opened outcome =>
    simp only [step] at hs
    split at hs
    · simp at hs
    · obtain ⟨i, -, hs⟩ := Option.bind_eq_some_iff.1 hs
      obtain ⟨c, hc, rfl⟩ := Option.map_eq_some_iff.1 hs
      exact ⟨h.store.keeps hc, .refl _⟩
  | turnDocs i =>
    obtain ⟨c, hc, rfl⟩ := Option.map_eq_some_iff.1 hs
    split
    · exact ⟨.refl _, h.docs.keeps hc⟩
    · exact ⟨.refl _, h.docs.keeps hc⟩
  | started outcome =>
    simp only [step] at hs
    split at hs
    · obtain ⟨c, hc, rfl⟩ := Option.map_eq_some_iff.1 hs
      exact ⟨.refl _, h.docs.keeps hc⟩
    · simp at hs
  | transferOpened k | documentEngine k | documentStore k =>
    simp only [step] at hs
    split at hs
    · simp at hs
    split at hs
    · obtain ⟨t, -, rfl⟩ := Option.map_eq_some_iff.1 hs
      exact hsame
    · simp at hs
  | transferTask k a =>
    simp only [step] at hs
    split at hs
    · simp at hs
    split at hs
    · obtain ⟨t, -, rfl⟩ := Option.map_eq_some_iff.1 hs
      exact hsame
    · simp at hs
  | transferAbandon k =>
    simp only [step] at hs
    split at hs
    · simp at hs
    · obtain ⟨t, -, rfl⟩ := Option.map_eq_some_iff.1 hs
      exact ⟨letGo_keeps _, .refl _⟩
  | documentTask k a =>
    simp only [step] at hs
    split at hs
    · simp at hs
    split at hs
    · obtain ⟨t, -, rfl⟩ := Option.map_eq_some_iff.1 hs
      split
      · exact hsame
      · exact hsame
    · simp at hs
  | documentAbandon k =>
    simp only [step] at hs
    split at hs
    · simp at hs
    next x hx =>
      obtain ⟨t, -, rfl⟩ := Option.map_eq_some_iff.1 hs
      have hgone : o.Keeps _ := letGoDocs_keeps (o.setDocument k { x with task := t }) x.caller
      generalize (o.setDocument k { x with task := t }).letGoDocs x.caller = o' at hgone
      cases x.again with
      | none => exact hgone
      | some j => exact ⟨hgone.1.trans (letGo_keeps j), hgone.2⟩
  | leave i =>
    simp only [step] at hs
    split at hs
    · obtain rfl := Option.some.inj hs
      exact ⟨letGo_keeps i, .refl _⟩
    · simp at hs
  | leaveDocs i =>
    simp only [step] at hs
    split at hs
    · obtain rfl := Option.some.inj hs
      exact letGoDocs_keeps o i
    · simp at hs

theorem Shared.built_ok {path : Option String} {o : Opening} (h : Shared path o) {s : Nat}
    (hs : o.docs.value = some (.ok s)) : o.store.value = some (.ok s) := by
  obtain ⟨v, outcome, hv, he⟩ := h.built _ hs
  cases v with
  | error err => simp [engineOutcome] at he
  | ok s' =>
    cases outcome with
    | error err => simp [engineOutcome] at he
    | ok _ =>
      rw [hv, he]
      rfl

/-- **Opened once, for all and for good.** In every run, whoever comes to the
blob store or the document engine and whoever gives up in between: each is
opened at most once, every call that returns returns the same, and later calls
do too. When it could not be opened every operation, and every document, that
says anything fails with the one reason and says no more. An engine that runs
is on that store. A store in memory is always opened. -/
theorem opened_once {path : Option String} {as : List Act} {o : Opening}
    (hrun : Machine.run (step path) {} as = some o) :
    o.store.made.length ≤ 1 ∧ o.docs.made.length ≤ 1 ∧
      (∀ (i : Nat) r, o.store.callers[i]? = some (.got r) → o.store.value = some r) ∧
      (∀ (i : Nat) r, o.docs.callers[i]? = some (.got r) → o.docs.value = some r) ∧
      (∀ x ∈ o.transfers, x.task.sent ≠ [] → (∃ s, o.store.value = some (.ok s)) ∨
        ∃ err, o.store.value = some (.error err) ∧ x.task.sent = [.failed err]) ∧
      (∀ x ∈ o.documents, x.task.sent ≠ [] → (∃ s, o.docs.value = some (.ok s)) ∨
        ∃ err, o.docs.value = some (.error err) ∧ x.task.sent = [.closed err]) ∧
      (∀ s, o.docs.value = some (.ok s) → o.store.value = some (.ok s)) ∧
      (path = none → ∀ err, o.store.value ≠ some (.error err)) ∧
      ∀ bs u, Machine.run (step path) o bs = some u → o.Keeps u := by
  have h := Machine.run_invariant (fun _ _ _ => shared_step) hrun shared_init
  refine ⟨h.store.le_one, h.docs.le_one, h.store.shared, h.docs.shared, fun x hx hsent => ?_, fun x hx hsent => ?_,
    fun _ => h.built_ok, h.memory, fun bs u hu => ?_⟩
  · rcases h.transfers x hx with ⟨-, hnil⟩ | hok | ⟨err, he, -, hfailed⟩
    · exact absurd hnil hsent
    · exact .inl hok
    · exact .inr ⟨err, he, hfailed⟩
  · rcases h.documents x hx with ⟨-, hnil⟩ | hok | ⟨err, he, -, hclosed⟩
    · exact absurd hnil hsent
    · exact .inl hok
    · exact .inr ⟨err, he, hclosed⟩
  · have hboth : Shared path u ∧ o.Keeps u := by
      refine Machine.run_invariant (I := fun u => Shared path u ∧ o.Keeps u) (fun s a s' hi hs => ?_) hu
        ⟨h, .refl _, .refl _⟩
      obtain ⟨hstore, hdocs⟩ := step_keeps hi.1 hs
      exact ⟨shared_step hi.1 hs, hi.2.1.trans hstore, hi.2.2.trans hdocs⟩
    exact hboth.2

/-- The store's database is locked, which two operations are told in turn. -/
def twoFail : List Act :=
  [.transfer (.add none), .transfer (.read "hash"), .turn 0, .opened (.error "locked"), .transferOpened 0, .turn 1,
    .transferOpened 1]

theorem opened_once_twoFail : ∃ o err, Machine.run (step (some "blobs")) {} twoFail = some o ∧
    o.store.value = some (.error err) ∧ o.transfers.length = 2 ∧ ∀ x ∈ o.transfers, x.task.sent = [.failed err] := by
  have hrun : ((Machine.run (step (some "blobs")) {} twoFail).map fun o =>
      (o.store.value.map fun r => r.toOption.isSome, o.transfers.map fun x => x.task.sent.length)) =
      some (some false, [1, 1]) := by
    decide +kernel
  obtain ⟨o, ho, he⟩ := Option.map_eq_some_iff.1 hrun
  simp only [Prod.mk.injEq] at he
  obtain ⟨r, hr, hfailed⟩ := Option.map_eq_some_iff.1 he.1
  cases r with
  | ok s => simp [Except.toOption] at hfailed
  | error err =>
    refine ⟨o, err, ho, hr, by simpa using congrArg List.length he.2, fun x hx => ?_⟩
    have hsent : x.task.sent ≠ [] := by
      have hmem := List.mem_map_of_mem (f := fun x : Transferring => x.task.sent.length) hx
      rw [he.2] at hmem
      intro hnil
      simp [hnil] at hmem
    rcases (opened_once ho).2.2.2.2.1 x hx hsent with ⟨s, hs⟩ | ⟨err', he', hx'⟩
    · simp [hr] at hs
    · rw [hr] at he'
      cases he'
      exact hx'

/-- **An open document has the store.** In every run, the store was opened
before any document was; so the task of one that is open finds the store when
it comes for it, and goes on. It never closes for want of the store. -/
theorem opened_has_store {path : Option String} {as : List Act} {o : Opening}
    (hrun : Machine.run (step path) {} as = some o) :
    (∀ x ∈ o.documents, (∃ id, .opened id ∈ x.task.sent) → ∃ s, o.store.value = some (.ok s) ∧
      o.docs.value = some (.ok s)) ∧
    ∀ k o', o.step path (.documentStore k) = some o' → ∀ x' ∈ o'.documents[k]?, x'.task.phase = .looping := by
  have h := Machine.run_invariant (fun _ _ _ => shared_step) hrun shared_init
  have hstore : (∃ s, o.docs.value = some (.ok s)) → ∃ s, o.store.value = some (.ok s) ∧ o.docs.value = some (.ok s) :=
    fun ⟨s, hs⟩ => ⟨s, h.built_ok hs, hs⟩
  refine ⟨fun x hx hopened => hstore ?_, fun k o' hs x' hx' => ?_⟩
  · obtain ⟨id, hid⟩ := hopened
    rcases h.documents x hx with ⟨-, hnil⟩ | hok | ⟨err, -, -, hclosed⟩
    · simp [hnil] at hid
    · exact hok
    · simp [hclosed] at hid
  · simp only [step] at hs
    split at hs
    · simp at hs
    next x hx =>
      split at hs
      · next r hr =>
        obtain ⟨t, ht, rfl⟩ := Option.map_eq_some_iff.1 hs
        obtain ⟨j, hj, hgot⟩ := Option.bind_eq_some_iff.1 hr
        obtain ⟨s, hv, -⟩ := hstore (h.again x (List.mem_of_getElem? hx) (by simp [hj]))
        obtain rfl : r = .ok s := Option.some.inj ((h.store.shared j r hgot).symm.trans hv)
        change (if x.task.phase = .store then some { x.task with phase := .looping } else none) = some t at ht
        split at ht
        · obtain rfl := Option.some.inj ht
          simp only [setDocument, List.getElem?_set, Option.mem_def] at hx'
          split at hx'
          · split at hx'
            · rw [← Option.some.inj hx']
            · simp at hx'
          · next hne => exact absurd trivial hne
        · simp at ht
      · simp at hs

/-- A document is created and opens. -/
def createDocument : List Act :=
  [.document .create, .turnDocs 0, .turn 0, .opened (.ok ()), .started (.ok ()), .documentEngine 0,
    .documentTask 0 (.document (.ok (some "id"))), .documentTask 0 (.author (.ok "author")),
    .documentTask 0 (.subscribed (.ok ())), .turn 1]

theorem opened_has_store_create : ∃ o s, Machine.run (step none) {} createDocument = some o ∧
    o.documents.length = 1 ∧ o.store.value = some (.ok s) ∧ o.docs.value = some (.ok s) := by
  have hrun : ((Machine.run (step none) {} createDocument).map fun o =>
      o.documents.map fun x => x.task.sent.any fun | .opened _ => true | _ => false) = some [true] := by
    decide +kernel
  obtain ⟨o, ho, he⟩ := Option.map_eq_some_iff.1 hrun
  obtain ⟨x, hx, hopened⟩ := List.map_eq_singleton_iff.1 he
  obtain ⟨e, hmem, hid⟩ := List.any_eq_true.1 hopened
  have hone : ∃ id, .opened id ∈ x.task.sent := by
    cases e with
    | opened id => exact ⟨id, hmem⟩
    | _ => simp at hid
  obtain ⟨s, hs⟩ := (opened_has_store ho).1 x (by simp [hx]) hone
  exact ⟨o, s, ho, by simp [hx], hs⟩

end Opening
end Gdiroh.Endpoint
