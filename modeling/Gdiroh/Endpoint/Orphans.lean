/-
No handle outlives its task unnoticed, unless the task goes without a word.

`try_recv().ok()` cannot tell an empty channel from one whose task is gone, so
a question, transfer, topic or document is given up only when its task has
sent a final event. Stopping the runtime drops tasks before that: closing the
last endpoint leaves a question pending, and polled, for good (`left_asking`).

`noticed_iff_seen` is the exact condition: no task of a handle still held is
dropped before its final event, and no question is put to a store while the
runtime is not running.
-/
import Gdiroh.Endpoint.Handles
import Gdiroh.Lib.Machine

namespace Gdiroh.Endpoint

open Polled

/-- Everything script waits for. -/
structure Handles where
  questions : List (Question Kind Answer)
  documentQuestions : List (Question DocKind Reply)
  transfers : List IrohTransfer
  topics : List IrohTopic
  documents : List IrohDocument

namespace Handles

def stop (h : Handles) : Handles :=
  ⟨h.questions.map Question.stop, h.documentQuestions.map Question.stop, h.transfers.map Object.stop,
    h.topics.map Object.stop, h.documents.map Object.stop⟩

structure Sound (h : Handles) : Prop where
  questions : ∀ q ∈ h.questions, q.ask.Sound fun _ => true
  documentQuestions : ∀ q ∈ h.documentQuestions, q.ask.Sound fun _ => true
  transfers : ∀ o ∈ h.transfers, o.Sound TransferEvent.final
  topics : ∀ o ∈ h.topics, o.Sound TopicEvent.final
  documents : ∀ o ∈ h.documents, o.Sound DocumentEvent.final

/-- Every task that is gone has sent its final event, and the handle has it. -/
structure Announced (h : Handles) : Prop where
  questions : ∀ q ∈ h.questions, q.ask.Announced
  documentQuestions : ∀ q ∈ h.documentQuestions, q.ask.Announced
  transfers : ∀ o ∈ h.transfers, o.Announced
  topics : ∀ o ∈ h.topics, o.Announced
  documents : ∀ o ∈ h.documents, o.Announced

end Handles

namespace World

def handles (w : World) : Handles :=
  ⟨w.endpoint.questions, w.endpoint.documentQuestions, w.transfers, w.topics, w.documents⟩

/-- Every object is drained once. -/
def drained (tree : Bool) (w : World) : World :=
  { w with
    endpoint := w.endpoint.drain tree
    transfers := w.transfers.map (Object.drain IrohTransfer.handle)
    topics := w.topics.map (Object.drain IrohTopic.handle)
    documents := w.documents.map (Object.drain IrohDocument.handle) }

/-- No handle outlives its task unnoticed: when the task is gone and nothing
waits in the channel, the next drain removes the question or gives the
channel up, and what has nothing left to poll does not tick. -/
structure Noticed (tree : Bool) (w : World) : Prop where
  questions : ∀ q ∈ w.endpoint.questions, q.ask.Silent → q ∉ (w.endpoint.drain tree).questions
  documentQuestions :
    ∀ q ∈ w.endpoint.documentQuestions, q.ask.Silent → q ∉ (w.endpoint.drain tree).documentQuestions
  ticking : (w.endpoint.drain tree).ticking = true → (w.endpoint.drain tree).outstanding = true
  transfers : ∀ o ∈ w.transfers, o.Noticed IrohTransfer.handle
  topics : ∀ o ∈ w.topics, o.Noticed IrohTopic.handle
  documents : ∀ o ∈ w.documents, o.Noticed IrohDocument.handle

/-- The step drops no task of a handle before its final event, and asks
nothing of a store without the runtime. -/
def Seen (w : World) : Action → Prop
  | .query _ _ _ => w.endpoint.depot.isSome = true → w.runtime = true
  | .queryDocuments _ _ _ => w.endpoint.library.isSome = true → w.runtime = true
  | .questionTask i m => ∀ q ∈ w.endpoint.questions[i]?, q.ask.Seen m
  | .documentQuestionTask i m => ∀ q ∈ w.endpoint.documentQuestions[i]?, q.ask.Seen m
  | .onTransfer a => Object.SeenAt w.transfers a
  | .onTopic a => Object.SeenAt w.topics a
  | .onDocument a => Object.SeenAt w.documents a
  | _ => True

instance (w : World) : ∀ a, Decidable (w.Seen a)
  | .query _ _ _ => inferInstanceAs (Decidable (_ → w.runtime = true))
  | .queryDocuments _ _ _ => inferInstanceAs (Decidable (_ → w.runtime = true))
  | .questionTask i m => inferInstanceAs (Decidable (∀ q ∈ w.endpoint.questions[i]?, q.ask.Seen m))
  | .documentQuestionTask i m => inferInstanceAs (Decidable (∀ q ∈ w.endpoint.documentQuestions[i]?, q.ask.Seen m))
  | .onTransfer a => inferInstanceAs (Decidable (Object.SeenAt w.transfers a))
  | .onTopic a => inferInstanceAs (Decidable (Object.SeenAt w.topics a))
  | .onDocument a => inferInstanceAs (Decidable (Object.SeenAt w.documents a))
  | .acquire _ | .release | .shutdown | .bind _ | .bindTask _ | .listening _ | .drain | .close | .transfer _
  | .subscribe _ | .openDocument _ => isTrue trivial

end World

/-! ## Which events are final -/

theorem IrohTransfer.closes : Object.Closes TransferEvent.final IrohTransfer.handle := by
  intro o e
  cases e with
  | size size => exact ⟨rfl, (Bool.and_true _).symm⟩
  | progress done => exact ⟨rfl, (Bool.and_true _).symm⟩
  | done hash data => exact ⟨rfl, (Bool.and_false _).symm⟩
  | failed reason => exact ⟨rfl, (Bool.and_false _).symm⟩

theorem IrohTopic.closes : Object.Closes TopicEvent.final IrohTopic.handle := by
  intro o e
  cases e with
  | neighborUp | neighborDown | message => exact ⟨rfl, (Bool.and_true _).symm⟩
  | lagged | closed => exact ⟨rfl, (Bool.and_false _).symm⟩

theorem IrohDocument.closes : Object.Closes DocumentEvent.final IrohDocument.handle := by
  intro o e
  cases e with
  | closed reason => exact ⟨rfl, (Bool.and_false _).symm⟩
  | _ => exact ⟨rfl, (Bool.and_true _).symm⟩

/-! ## Questions -/

namespace Question
variable {κ ε : Type}

theorem move_sound {q q' : Question κ ε} {m : Move ε} (h : q.ask.Sound fun _ => true) (hm : q.move m = some q') :
    q'.ask.Sound fun _ => true := by
  obtain ⟨p, hp, rfl⟩ := Option.map_eq_some_iff.1 hm
  exact Producer.move_sound h hp

theorem move_announced {q q' : Question κ ε} {m : Move ε} (hm : q.move m = some q') :
    q'.ask.Announced ↔ q.ask.Seen m := by
  obtain ⟨p, hp, rfl⟩ := Option.map_eq_some_iff.1 hm
  exact Producer.move_announced hp

theorem mem_kept {l : List (Question κ ε)} {q : Question κ ε} : q ∈ kept l ↔ q ∈ l ∧ q.ask.queue = [] := by
  simp [kept, List.mem_filter]

/-- Silent questions are removed by the drain exactly when there are none. -/
theorem noticed_iff {l : List (Question κ ε)} (h : ∀ q ∈ l, q.ask.Sound fun _ => true) :
    (∀ q ∈ l, q.ask.Silent → q ∉ kept l) ↔ ∀ q ∈ l, q.ask.Announced := by
  constructor
  · intro hnoticed q hq hgone
    refine (h q hq).2 ?_
    by_contra hnone
    have hempty : q.ask.queue = [] := by
      rw [List.eq_nil_iff_forall_not_mem]
      exact fun e he => hnone ⟨e, he, rfl⟩
    exact hnoticed q hq ⟨hgone, hempty⟩ (mem_kept.2 ⟨hq, hempty⟩)
  · intro ha q hq hsilent
    obtain ⟨e, he, -⟩ := (h q hq).1 (ha q hq hsilent.1)
    simp [hsilent.2] at he

end Question

namespace Waiting
variable (tree : Bool) (e : Waiting)

theorem drainBind_questions : (e.drainBind tree).questions = e.questions ∧
    (e.drainBind tree).documentQuestions = e.documentQuestions := by
  unfold drainBind
  split
  · exact ⟨rfl, rfl⟩
  · split
    · next result _ _ => cases result <;> exact ⟨rfl, rfl⟩
    · split
      · exact ⟨rfl, rfl⟩
      · exact ⟨rfl, rfl⟩

theorem drain_questions : (e.drain tree).questions = Question.kept e.questions := by
  rw [← (drainBind_questions tree e).1]
  rfl

theorem drain_documentQuestions : (e.drain tree).documentQuestions = Question.kept e.documentQuestions := by
  rw [← (drainBind_questions tree e).2]
  rfl

/-- After a drain the endpoint ticks only when something needs polling. -/
theorem drain_ticking (h : (e.drain tree).ticking = true) : (e.drain tree).outstanding = true := by
  by_contra hno
  have hfalse : (e.drain tree).ticking = false := if_neg hno
  simp [hfalse] at h

end Waiting

/-! ## What a step does to the handles -/

namespace World

section Frame
variable (tree : Bool) (w : World)

theorem release_handles : w.release.handles = w.handles ∨ w.release.handles = w.handles.stop := by
  unfold release
  dsimp only
  split
  · exact .inl rfl
  · split
    · exact .inr rfl
    · exact .inl rfl

theorem shutdown_handles : w.shutdown.handles = w.handles ∨ w.shutdown.handles = w.handles.stop := by
  unfold shutdown
  dsimp only
  split
  · exact .inr rfl
  · exact .inl rfl

theorem close_handles : (w.close tree).handles = w.handles ∨ (w.close tree).handles = w.handles.stop := by
  unfold close teardown
  dsimp only
  split
  · exact release_handles _
  · exact .inl rfl

theorem acquire_handles {w w' : World} {built : Bool} (h : w.acquire built = some w') : w'.handles = w.handles := by
  unfold acquire at h
  split at h
  · exact Option.some.inj h ▸ rfl
  · simp at h

theorem lease_handles (built : Bool) : (w.lease built).handles = w.handles := by
  unfold lease
  split
  · rfl
  · split
    · next v ha => exact (acquire_handles ha : v.handles = w.handles)
    · rfl

theorem bind_handles (built : Bool) : (w.bind tree built).handles = w.handles := by
  unfold bind
  split
  · rfl
  · dsimp only
    split
    · exact lease_handles w built
    · exact lease_handles w built

/-- The action is about the runtime, the bind or the listeners. -/
def Action.Quiet : Action → Prop
  | .acquire _ | .release | .shutdown | .bind _ | .bindTask _ | .listening _ | .close => True
  | _ => False

/-- Such a step leaves every handle as it was, or stops all tasks. -/
theorem quiet_handles {tree : Bool} {w w' : World} {a : Action} (hs : w.step tree a = some w') (hq : a.Quiet) :
    w'.handles = w.handles ∨ w'.handles = w.handles.stop := by
  cases a with
  | acquire built =>
    obtain ⟨v, hv, rfl⟩ := Option.map_eq_some_iff.1 hs
    exact .inl (acquire_handles hv : v.handles = w.handles)
  | release =>
    simp only [step] at hs
    split at hs
    · exact Option.some.inj hs ▸ release_handles { w with others := w.others - 1 }
    · simp at hs
  | shutdown => exact Option.some.inj hs ▸ shutdown_handles w
  | bind built => exact .inl (Option.some.inj hs ▸ bind_handles tree w built)
  | bindTask m =>
    obtain ⟨p, -, hp⟩ := Option.bind_eq_some_iff.1 hs
    obtain ⟨p', -, rfl⟩ := Option.map_eq_some_iff.1 hp
    exact .inl rfl
  | listening any => exact .inl (Option.some.inj hs ▸ rfl)
  | close => exact Option.some.inj hs ▸ close_handles tree w
  | _ => exact absurd hq id

end Frame

theorem detach_sound {ε : Type} {final : ε → Bool} {w : World} {failed : Option ε} (h : ∀ e ∈ failed, final e = true) :
    (w.detach failed).Sound final := by
  unfold detach
  split
  · exact Producer.spawned_sound
  · exact Producer.unspawned_sound h

theorem detach_announced {ε : Type} {w : World} {e : ε} : (w.detach (some e)).Announced := by
  unfold detach
  split
  · exact Producer.spawned_announced
  · exact Producer.unspawned_announced

theorem detach_none_announced {ε : Type} {w : World} :
    (w.detach (none : Option ε)).Announced ↔ w.runtime = true := by
  unfold detach
  split
  · next h => exact iff_of_true Producer.spawned_announced h
  · next h => exact iff_of_false (fun ha => by simpa [Producer.unspawned] using ha rfl) h

end World

namespace Handles

theorem stop_sound {h : Handles} (hs : h.Sound) : h.stop.Sound where
  questions := List.forall_mem_map.2 hs.questions
  documentQuestions := List.forall_mem_map.2 hs.documentQuestions
  transfers := List.forall_mem_map.2 fun o ho => Object.stop_sound (hs.transfers o ho)
  topics := List.forall_mem_map.2 fun o ho => Object.stop_sound (hs.topics o ho)
  documents := List.forall_mem_map.2 fun o ho => Object.stop_sound (hs.documents o ho)

theorem stop_announced {h : Handles} (ha : h.Announced) : h.stop.Announced where
  questions := List.forall_mem_map.2 ha.questions
  documentQuestions := List.forall_mem_map.2 ha.documentQuestions
  transfers := List.forall_mem_map.2 fun o ho => Object.stop_announced (ha.transfers o ho)
  topics := List.forall_mem_map.2 fun o ho => Object.stop_announced (ha.topics o ho)
  documents := List.forall_mem_map.2 fun o ho => Object.stop_announced (ha.documents o ho)

end Handles

namespace World

theorem forall_mem_concat {τ : Type} {P : τ → Prop} {l : List τ} {x : τ} (h : ∀ y ∈ l, P y) :
    (∀ y ∈ l ++ [x], P y) ↔ P x := by
  constructor
  · exact fun hall => hall x (by simp)
  · intro hx y hy
    rcases List.mem_append.1 hy with hy | hy
    · exact h y hy
    · exact List.mem_singleton.1 hy ▸ hx

/-- **One step** leaves the channels sound. -/
theorem sound_step {tree : Bool} {w w' : World} {a : Action} (h : w.handles.Sound)
    (hs : w.step tree a = some w') : w'.handles.Sound := by
  cases a with
  | acquire _ | release | shutdown | bind _ | bindTask _ | listening _ | close =>
    rcases quiet_handles hs trivial with heq | heq
    · exact heq ▸ h
    · exact heq ▸ Handles.stop_sound h
  | drain =>
    rw [← Option.some.inj hs]
    refine ⟨fun q hq => ?_, fun q hq => ?_, h.transfers, h.topics, h.documents⟩
    · simp only [handles, Waiting.drain_questions] at hq
      exact h.questions q (Question.mem_kept.1 hq).1
    · simp only [handles, Waiting.drain_documentQuestions] at hq
      exact h.documentQuestions q (Question.mem_kept.1 hq).1
  | query kind about s =>
    rw [← Option.some.inj hs]
    unfold query
    dsimp only
    split
    · exact { h with questions := (forall_mem_concat h.questions).2 (detach_sound (by simp)) }
    · exact h
  | queryDocuments kind about s =>
    rw [← Option.some.inj hs]
    unfold queryDocuments
    dsimp only
    split
    · exact { h with documentQuestions := (forall_mem_concat h.documentQuestions).2 (detach_sound (by simp)) }
    · exact h
  | questionTask i m =>
    obtain ⟨qs, hqs, rfl⟩ := Option.map_eq_some_iff.1 hs
    exact { h with questions := changeAt_keeps hqs h.questions fun q q' hq hm => Question.move_sound (h.questions q hq) hm }
  | documentQuestionTask i m =>
    obtain ⟨qs, hqs, rfl⟩ := Option.map_eq_some_iff.1 hs
    exact { h with
      documentQuestions := changeAt_keeps hqs h.documentQuestions fun q q' hq hm =>
        Question.move_sound (h.documentQuestions q hq) hm }
  | transfer s =>
    rw [← Option.some.inj hs]
    unfold transfer
    dsimp only
    split
    · exact { h with
        transfers := (forall_mem_concat h.transfers).2 (Object.wrap_sound (detach_sound (by simp [TransferEvent.final]))) }
    · exact h
  | subscribe s =>
    rw [← Option.some.inj hs]
    unfold subscribe
    dsimp only
    split
    · exact { h with
        topics := (forall_mem_concat h.topics).2 (Object.wrap_sound (detach_sound (by simp [TopicEvent.final]))) }
    · exact h
  | openDocument s =>
    rw [← Option.some.inj hs]
    unfold openDocument
    dsimp only
    split
    · exact { h with
        documents := (forall_mem_concat h.documents).2 (Object.wrap_sound (detach_sound (by simp [DocumentEvent.final]))) }
    · exact h
  | onTransfer a =>
    obtain ⟨os, hos, rfl⟩ := Option.map_eq_some_iff.1 hs
    exact { h with transfers := Object.act_sound IrohTransfer.closes h.transfers hos }
  | onTopic a =>
    obtain ⟨os, hos, rfl⟩ := Option.map_eq_some_iff.1 hs
    exact { h with topics := Object.act_sound IrohTopic.closes h.topics hos }
  | onDocument a =>
    obtain ⟨os, hos, rfl⟩ := Option.map_eq_some_iff.1 hs
    exact { h with documents := Object.act_sound IrohDocument.closes h.documents hos }

/-- Without the runtime a store is there only when it was. -/
theorem depot_asked {w : World} {s : Starts} :
    ((w.depot s).endpoint.depot.isSome = true → w.runtime = true) ↔
      (w.endpoint.depot.isSome = true → w.runtime = true) := by
  cases hr : w.runtime with
  | true => simp
  | false =>
    have hdepot := Lifetime.startDepot_depot w.endpoint.toIrohEndpoint (w.starts s)
    rw [if_neg fun h => by simpa [starts, hr] using h.2.2] at hdepot
    simp only [depot, hdepot]

theorem library_asked {w : World} {s : Starts} :
    ((w.library s).endpoint.library.isSome = true → w.runtime = true) ↔
      (w.endpoint.library.isSome = true → w.runtime = true) := by
  cases hr : w.runtime with
  | true => simp
  | false =>
    rcases Lifetime.startLibrary_library w.endpoint.toIrohEndpoint (w.starts s) with ⟨hsame, -⟩ | ⟨-, hstarts⟩
    · simp only [library, hsame]
    · simpa [starts, hr] using hstarts.2.2.2.2

/-- **One step** leaves a task gone without a word exactly when it is not
seen. -/
theorem announced_step {tree : Bool} {w w' : World} {a : Action} (h : w.handles.Announced)
    (hs : w.step tree a = some w') : w'.handles.Announced ↔ w.Seen a := by
  cases a with
  | acquire _ | release | shutdown | bind _ | bindTask _ | listening _ | close =>
    refine iff_of_true ?_ trivial
    rcases quiet_handles hs trivial with heq | heq
    · exact heq ▸ h
    · exact heq ▸ Handles.stop_announced h
  | drain =>
    rw [← Option.some.inj hs]
    refine iff_of_true ⟨fun q hq => ?_, fun q hq => ?_, h.transfers, h.topics, h.documents⟩ trivial
    · simp only [handles, Waiting.drain_questions] at hq
      exact h.questions q (Question.mem_kept.1 hq).1
    · simp only [handles, Waiting.drain_documentQuestions] at hq
      exact h.documentQuestions q (Question.mem_kept.1 hq).1
  | query kind about s =>
    have hasked := depot_asked (w := w) (s := s)
    rw [← Option.some.inj hs]
    unfold query
    dsimp only
    split
    · next hdepot =>
      rw [Seen, ← hasked]
      have hiff : (∀ q ∈ w.endpoint.questions ++ [⟨kind, about, (w.depot s).detach none⟩], q.ask.Announced) ↔
          w.runtime = true := (forall_mem_concat h.questions).trans detach_none_announced
      exact ⟨fun ha _ => hiff.1 ha.questions, fun hr => { h with questions := hiff.2 (hr hdepot) }⟩
    · next hdepot => exact iff_of_true h (hasked.1 fun hd => absurd hd hdepot)
  | queryDocuments kind about s =>
    have hasked := library_asked (w := w) (s := s)
    rw [← Option.some.inj hs]
    unfold queryDocuments
    dsimp only
    split
    · next hlibrary =>
      rw [Seen, ← hasked]
      have hiff : (∀ q ∈ w.endpoint.documentQuestions ++ [⟨kind, about, (w.library s).detach none⟩], q.ask.Announced) ↔
          w.runtime = true := (forall_mem_concat h.documentQuestions).trans detach_none_announced
      exact ⟨fun ha _ => hiff.1 ha.documentQuestions, fun hr => { h with documentQuestions := hiff.2 (hr hlibrary) }⟩
    · next hlibrary => exact iff_of_true h (hasked.1 fun hd => absurd hd hlibrary)
  | questionTask i m =>
    obtain ⟨qs, hqs, rfl⟩ := Option.map_eq_some_iff.1 hs
    have hiff := forall_changeAt hqs h.questions fun q q' hq hm => Question.move_announced hm
    exact ⟨fun ha => hiff.1 ha.questions, fun hseen => { h with questions := hiff.2 hseen }⟩
  | documentQuestionTask i m =>
    obtain ⟨qs, hqs, rfl⟩ := Option.map_eq_some_iff.1 hs
    have hiff := forall_changeAt hqs h.documentQuestions fun q q' hq hm => Question.move_announced hm
    exact ⟨fun ha => hiff.1 ha.documentQuestions, fun hseen => { h with documentQuestions := hiff.2 hseen }⟩
  | transfer s =>
    rw [← Option.some.inj hs]
    refine iff_of_true ?_ trivial
    unfold transfer
    dsimp only
    split
    · exact { h with transfers := (forall_mem_concat h.transfers).2 (Object.wrap_announced detach_announced) }
    · exact h
  | subscribe s =>
    rw [← Option.some.inj hs]
    refine iff_of_true ?_ trivial
    unfold subscribe
    dsimp only
    split
    · exact { h with topics := (forall_mem_concat h.topics).2 (Object.wrap_announced detach_announced) }
    · exact h
  | openDocument s =>
    rw [← Option.some.inj hs]
    refine iff_of_true ?_ trivial
    unfold openDocument
    dsimp only
    split
    · exact { h with documents := (forall_mem_concat h.documents).2 (Object.wrap_announced detach_announced) }
    · exact h
  | onTransfer a =>
    obtain ⟨os, hos, rfl⟩ := Option.map_eq_some_iff.1 hs
    have hiff := Object.act_announced IrohTransfer.closes h.transfers hos
    exact ⟨fun ha => hiff.1 ha.transfers, fun hseen => { h with transfers := hiff.2 hseen }⟩
  | onTopic a =>
    obtain ⟨os, hos, rfl⟩ := Option.map_eq_some_iff.1 hs
    have hiff := Object.act_announced IrohTopic.closes h.topics hos
    exact ⟨fun ha => hiff.1 ha.topics, fun hseen => { h with topics := hiff.2 hseen }⟩
  | onDocument a =>
    obtain ⟨os, hos, rfl⟩ := Option.map_eq_some_iff.1 hs
    have hiff := Object.act_announced IrohDocument.closes h.documents hos
    exact ⟨fun ha => hiff.1 ha.documents, fun hseen => { h with documents := hiff.2 hseen }⟩

theorem drained_sound {tree : Bool} {w : World} (h : w.handles.Sound) : (w.drained tree).handles.Sound where
  questions q hq := h.questions q (Question.mem_kept.1 (Waiting.drain_questions tree w.endpoint ▸ hq)).1
  documentQuestions q hq :=
    h.documentQuestions q (Question.mem_kept.1 (Waiting.drain_documentQuestions tree w.endpoint ▸ hq)).1
  transfers := List.forall_mem_map.2 fun o ho => Object.drain_sound IrohTransfer.closes (h.transfers o ho)
  topics := List.forall_mem_map.2 fun o ho => Object.drain_sound IrohTopic.closes (h.topics o ho)
  documents := List.forall_mem_map.2 fun o ho => Object.drain_sound IrohDocument.closes (h.documents o ho)

theorem drained_announced {tree : Bool} {w : World} (h : w.handles.Announced) :
    (w.drained tree).handles.Announced where
  questions q hq := h.questions q (Question.mem_kept.1 (Waiting.drain_questions tree w.endpoint ▸ hq)).1
  documentQuestions q hq :=
    h.documentQuestions q (Question.mem_kept.1 (Waiting.drain_documentQuestions tree w.endpoint ▸ hq)).1
  transfers := List.forall_mem_map.2 fun o ho => Object.drain_announced IrohTransfer.closes (h.transfers o ho)
  topics := List.forall_mem_map.2 fun o ho => Object.drain_announced IrohTopic.closes (h.topics o ho)
  documents := List.forall_mem_map.2 fun o ho => Object.drain_announced IrohDocument.closes (h.documents o ho)

theorem noticed_of_announced {tree : Bool} {w : World} (h : w.handles.Sound) (ha : w.handles.Announced) :
    w.Noticed tree where
  questions q hq :=
    Waiting.drain_questions tree w.endpoint ▸ (Question.noticed_iff h.questions).2 ha.questions q hq
  documentQuestions q hq :=
    Waiting.drain_documentQuestions tree w.endpoint ▸
      (Question.noticed_iff h.documentQuestions).2 ha.documentQuestions q hq
  ticking := Waiting.drain_ticking tree w.endpoint
  transfers o ho := Object.noticed_of_announced IrohTransfer.closes (h.transfers o ho) (ha.transfers o ho)
  topics o ho := Object.noticed_of_announced IrohTopic.closes (h.topics o ho) (ha.topics o ho)
  documents o ho := Object.noticed_of_announced IrohDocument.closes (h.documents o ho) (ha.documents o ho)

/-- **Noticed exactly when announced**: nothing that is gone is polled for
good. -/
theorem noticed_iff_announced {tree : Bool} {w : World} (h : w.handles.Sound) :
    w.Noticed tree ∧ (w.drained tree).Noticed tree ↔ w.handles.Announced := by
  have hquestions := Question.noticed_iff h.questions
  have hdocuments := Question.noticed_iff h.documentQuestions
  constructor
  · rintro ⟨hn, hd⟩
    refine ⟨hquestions.1 fun q hq => ?_, hdocuments.1 fun q hq => ?_, fun o ho => ?_, fun o ho => ?_, fun o ho => ?_⟩
    · exact Waiting.drain_questions tree w.endpoint ▸ hn.questions q hq
    · exact Waiting.drain_documentQuestions tree w.endpoint ▸ hn.documentQuestions q hq
    · exact (Object.noticed_iff IrohTransfer.closes (h.transfers o ho)).1
        ⟨hn.transfers o ho, hd.transfers _ (List.mem_map_of_mem ho)⟩
    · exact (Object.noticed_iff IrohTopic.closes (h.topics o ho)).1
        ⟨hn.topics o ho, hd.topics _ (List.mem_map_of_mem ho)⟩
    · exact (Object.noticed_iff IrohDocument.closes (h.documents o ho)).1
        ⟨hn.documents o ho, hd.documents _ (List.mem_map_of_mem ho)⟩
  · intro ha
    exact ⟨noticed_of_announced h ha, noticed_of_announced (drained_sound h) (drained_announced ha)⟩

theorem handles_init_sound : (({} : World).handles).Sound := by constructor <;> simp [handles]

theorem handles_init_announced : (({} : World).handles).Announced := by constructor <;> simp [handles]

theorem run_sound {tree : Bool} {as : List Action} {w : World} (h : Machine.run (step tree) {} as = some w) :
    w.handles.Sound :=
  Machine.run_invariant (fun _ _ _ hi hs => sound_step hi hs) h handles_init_sound

/-- **No handle outlives its task unnoticed exactly when every task is seen
off.** For every run: in every state of it, and after a drain of everything
there, the next drain removes each question whose task is gone and whose
channel is empty, and each transfer, topic and document likewise has given
its channel up and does not tick, if and only if no step of the run drops a
task of a handle before its final event or asks a store without the runtime. -/
theorem noticed_iff_seen {tree : Bool} {as : List Action} {w : World}
    (h : Machine.run (step tree) {} as = some w) :
    (∀ bs q, bs <+: as → Machine.run (step tree) {} bs = some q → q.Noticed tree ∧ (q.drained tree).Noticed tree) ↔
      Machine.Along (step tree) Seen {} as := by
  rw [← Machine.invariant_iff_along (I := fun q => q.handles.Announced) (fun _ _ _ ha hs => announced_step ha hs) h
    handles_init_announced]
  constructor
  · intro hall bs q hbs hq
    exact (noticed_iff_announced (run_sound hq)).1 (hall bs q hbs hq)
  · intro hall bs q hbs hq
    exact (noticed_iff_announced (run_sound hq)).2 (hall bs q hbs hq)

/-- A bind, a question and a transfer, both answered before the endpoint is
closed. -/
def answeredInTime : List Action :=
  [.bind true, .bindTask (.send (.ok "id")), .bindTask .finish, .drain, .query .blobs "blob list" {}, .transfer {},
    .questionTask 0 (.send (.names ["hash"])), .onTransfer (.task 0 (.send (.done "hash" []))), .close,
    .questionTask 0 .drop, .onTransfer (.task 0 .drop), .drain, .onTransfer (.drain 0)]

theorem noticed_iff_seen_answeredInTime : ∃ w, Machine.run (step true) {} answeredInTime = some w ∧
    w.endpoint.questions.length = 0 ∧ w.endpoint.emitted = [.bound "id", .blobList ["hash"]] ∧ w.Noticed true := by
  have hrun : ((Machine.run (step true) {} answeredInTime).map fun w =>
      (w.endpoint.questions.length, w.endpoint.emitted)) = some (0, [.bound "id", .blobList ["hash"]]) := by
    decide +kernel
  obtain ⟨w, hw, he⟩ := Option.map_eq_some_iff.1 hrun
  simp only [Prod.mk.injEq] at he
  exact ⟨w, hw, he.1, he.2, ((noticed_iff_seen hw).2 (by decide +kernel) _ w (List.prefix_refl _) hw).1⟩

/-- **Left asking**: the last endpoint is closed with a question in flight.
Its task is dropped with the runtime, and the question stays, polled on every
frame. -/
theorem left_asking : ∃ w, Machine.run (step true) {} [.bind true, .bindTask (.send (.ok "id")), .drain,
    .query .blobs "blob list" {}, .close, .questionTask 0 .drop, .drain] = some w ∧
      w.endpoint.questions.map (fun q => (q.about, q.ask.there, q.ask.queue.length)) = [("blob list", false, 0)] ∧
      w.endpoint.ticking = true ∧ ¬ w.Noticed true := by
  have hrun : ((Machine.run (step true) {} [.bind true, .bindTask (.send (.ok "id")), .drain,
      .query .blobs "blob list" {}, .close, .questionTask 0 .drop, .drain]).map fun w =>
        (w.endpoint.questions.map (fun q => (q.about, q.ask.there, q.ask.queue.length)), w.endpoint.ticking)) =
      some ([("blob list", false, 0)], true) := by
    decide +kernel
  obtain ⟨w, hw, he⟩ := Option.map_eq_some_iff.1 hrun
  simp only [Prod.mk.injEq] at he
  refine ⟨w, hw, he.1, he.2, fun hnoticed => ?_⟩
  obtain ⟨q, hq⟩ := List.length_eq_one_iff.1 (by simpa using congrArg List.length he.1)
  have hone := he.1
  simp only [hq, List.map_cons, List.map_nil, List.cons.injEq, Prod.mk.injEq, List.length_eq_zero_iff,
    and_true] at hone
  have hmem : q ∈ w.endpoint.questions := by simp [hq]
  refine hnoticed.questions q hmem ⟨hone.2.1, hone.2.2⟩ ?_
  rw [Waiting.drain_questions]
  exact Question.mem_kept.2 ⟨hmem, hone.2.2⟩

end World
end Gdiroh.Endpoint
