/-
What `abort` does to a stream.

It is said to give up on the stream at once: what is still queued is
abandoned, the write half is reset and the read half stopped with the code.
But the request goes to the writer through the queue it is to abandon, so all
that comes before it there comes first (`abort_behind_data`). Data is written
after all, and may hold the abort up for as long as the remote does not read.
A finish, or an earlier abort with another code, makes the writer return and
the abort is never looked at. A write that fails has the same effect.

`abort_honoured` is that nothing else goes wrong: when none of this comes
before an abort, it does what it says, on every schedule of the two tasks; and
where something does, there is a schedule on which it does not.
-/
import Gdiroh.Raw.Carry

namespace Gdiroh.Raw.Carry

/-- The abort that returns true is the first thing for the writer to receive,
and no write fails while one waits. -/
def Clear (s : Carry) : Act → Prop
  | .abort code =>
    s.held = true → s.writer.listening = true → ∀ chunk ∈ s.outgoing.head?, chunk = .abort (abortCode code)
  | .writeFails => ∀ code, .abort code ∉ s.outgoing
  | _ => True

/-- Every abort that returned true: nothing was begun to be written after it,
and once both tasks have returned, the write half is reset with its code and
the read half stopped with it, unless the reader had come to an end. -/
def Honoured (s : Carry) : Prop :=
  ∀ abort ∈ s.aborts, s.started = abort.2 ∧
    (s.writer = .returned → s.reader = .ended ∨ s.reader = .stopped →
      s.half = .reset abort.1 ∧ (s.stopped = some abort.1 ∨ s.reader = .ended))

/-! ## How far an abort has come -/

/-- An abort with this code is the next for the writer, or the writer has
carried it out, or the writer is gone. -/
inductive Fate (s : Carry) (code : UInt32) : Prop
  | next (hl : s.writer.listening = true) (hq : s.outgoing.head? = some (.abort code))
  | reset (hw : s.writer = .returned) (hh : s.half = .reset code) (ha : s.aborted = some code)
  | gone (hw : s.writer = .gone)

structure Abandoned (s : Carry) : Prop where
  /-- Only a writer that returns sends the reader a code, and the reader stops
  with the code it was sent. -/
  sent : s.aborted.isSome = true → s.writer = .returned
  stopped : s.reader = .stopped → s.stopped = s.aborted ∧ s.aborted.isSome = true
  aborts : ∀ abort ∈ s.aborts, s.started = abort.2 ∧ s.Fate abort.1

variable {s s' : Carry}

theorem Abandoned.honoured (h : s.Abandoned) : s.Honoured := by
  intro abort hm
  obtain ⟨hstarted, hfate⟩ := h.aborts abort hm
  refine ⟨hstarted, fun hw hr => ?_⟩
  cases hfate with
  | next hl => simp [hw, Writer.listening] at hl
  | gone hg => simp [hw] at hg
  | reset _ hh ha =>
    refine ⟨hh, hr.symm.imp (fun hr => ?_) id⟩
    rw [(h.stopped hr).1, ha]

theorem Fate.same {code : UInt32} (h : s.Fate code) (hw : s'.writer = s.writer)
    (hq : s.outgoing.head? = some (.abort code) → s'.outgoing.head? = some (.abort code)) (hh : s'.half = s.half)
    (ha : s'.aborted = s.aborted) : s'.Fate code := by
  cases h with
  | next hl hq' => exact .next (hw ▸ hl) (hq hq')
  | reset hw' hh' ha' => exact .reset (hw.trans hw') (hh.trans hh') (ha.trans ha')
  | gone hw' => exact .gone (hw.trans hw')

/-- A step that leaves the writer and all of its doing alone. -/
theorem Abandoned.same (h : s.Abandoned) (hw : s'.writer = s.writer) (hq : s'.outgoing = s.outgoing)
    (hh : s'.half = s.half) (hstarted : s'.started = s.started) (ha : s'.aborted = s.aborted)
    (haborts : s'.aborts = s.aborts) (hr : s'.reader = .stopped → s.reader = .stopped ∧ s'.stopped = s.stopped) :
    s'.Abandoned := by
  refine ⟨fun hs => hw.trans (h.sent (ha ▸ hs)), fun hst => ?_, fun abort hm => ?_⟩
  · obtain ⟨hst, hsame⟩ := hr hst
    rw [hsame, ha]
    exact h.stopped hst
  · obtain ⟨hs, hf⟩ := h.aborts abort (haborts ▸ hm)
    exact ⟨hstarted.trans hs, hf.same hw (fun hq' => hq ▸ hq') hh ha⟩

/-- The queue grows behind an abort. -/
theorem Fate.queue {code : UInt32} (h : s.Fate code) (hw : s'.writer = s.writer) {more : List Chunk}
    (hq : s'.outgoing = s.outgoing ++ more) (hh : s'.half = s.half) (ha : s'.aborted = s.aborted) : s'.Fate code :=
  h.same hw (fun hq' => by rw [hq, List.head?_append, hq']; rfl) hh ha

theorem enqueue_abandoned (h : s.Abandoned) (chunk : Chunk) : (s.enqueue chunk).Abandoned := by
  unfold enqueue
  split
  · refine ⟨h.sent, h.stopped, fun abort hm => ?_⟩
    obtain ⟨hs, hf⟩ := h.aborts abort hm
    exact ⟨hs, hf.queue rfl rfl rfl rfl⟩
  · exact h

/-- While the writer waits, an abort that returned true is the next it
receives. -/
theorem Abandoned.next_of_waiting (h : s.Abandoned) (hw : s.writer = .waiting) :
    ∀ abort ∈ s.aborts, s.outgoing.head? = some (.abort abort.1) := by
  intro abort hm
  cases (h.aborts abort hm).2 with
  | next _ hq => exact hq
  | reset hw' => simp [hw] at hw'
  | gone hw' => simp [hw] at hw'

theorem Abandoned.not_stopped (h : s.Abandoned) (hw : s.writer ≠ .returned) : s.reader ≠ .stopped :=
  fun hr => hw (h.sent (h.stopped hr).2)

/-- A writer that still writes, or starts to wait. -/
theorem Abandoned.listening (h : s.Abandoned) {writer : Writer} {reader : Reader} (hl : s.writer.listening = true)
    (hl' : writer.listening = true) (hr : reader ≠ .stopped) :
    Abandoned { s with writer := writer, reader := reader } := by
  have hne : s.writer ≠ .returned := by
    intro hw
    simp [hw, Writer.listening] at hl
  refine ⟨fun hs => absurd (h.sent hs) hne, fun hst => absurd hst hr, fun abort hm => ⟨(h.aborts abort hm).1, ?_⟩⟩
  cases (h.aborts abort hm).2 with
  | next _ hq => exact .next hl' hq
  | reset hw => exact absurd hw hne
  | gone hw => simp [hw, Writer.listening] at hl

/-- A writer that goes takes what is queued with it. -/
theorem Abandoned.goes (h : s.Abandoned) {reader : Reader} (hw : s.writer ≠ .returned) (hr : reader ≠ .stopped) :
    Abandoned { s with writer := .gone, reader := reader } :=
  ⟨fun hs => absurd (h.sent hs) hw, fun hst => absurd hst hr, fun abort hm => ⟨(h.aborts abort hm).1, .gone rfl⟩⟩

/-- A writer that returns of its own accord, with no abort waiting. -/
theorem Abandoned.returns (h : s.Abandoned) {outgoing : List Chunk} {half : Half} {started : List Bytes}
    {writer : Writer} (hw : s.writer ≠ .returned) (hno : s.aborts = []) :
    Abandoned { s with outgoing := outgoing, writer := writer, half := half, started := started } :=
  ⟨fun hs => absurd (h.sent hs) hw, fun hst => absurd hst (h.not_stopped hw), by simp [hno]⟩

theorem aborts_eq_nil (h : s.Abandoned) {chunk : Chunk} {rest : List Chunk} (hw : s.writer = .waiting)
    (hq : s.outgoing = chunk :: rest) (hne : ∀ code, chunk ≠ .abort code) : s.aborts = [] := by
  by_contra hsome
  obtain ⟨abort, hm⟩ := List.exists_mem_of_ne_nil _ hsome
  have hhead := h.next_of_waiting hw abort hm
  rw [hq, List.head?_cons, Option.some.injEq] at hhead
  exact hne _ hhead

theorem stepped_abandoned {a : Act} (h : s.Abandoned) (hc : s.Clear a) (hs : Stepped s a s') : s'.Abandoned := by
  cases hs with
  | write => exact enqueue_abandoned h _
  | finish => exact enqueue_abandoned h _
  | @abort code _ ha =>
    have hhead := hc ha.1 ha.2
    have hnext : (s.outgoing ++ [Chunk.abort (abortCode code)]).head? = some (.abort (abortCode code)) := by
      cases hq : s.outgoing with
      | nil => rfl
      | cons chunk rest => simp [hhead chunk (by simp [hq])]
    refine ⟨h.sent, h.stopped, fun abort hm => ?_⟩
    rcases List.mem_append.1 hm with hm | hm
    · obtain ⟨hs, hf⟩ := h.aborts abort hm
      exact ⟨hs, hf.queue rfl rfl rfl rfl⟩
    · obtain rfl := List.mem_singleton.1 hm
      exact ⟨rfl, .next ha.2 hnext⟩
  | abortLate => exact h
  | close => exact h.same rfl rfl rfl rfl rfl rfl fun hr => ⟨hr, rfl⟩
  | opened ho => exact h.listening (by simp [ho, Writer.listening]) rfl (by simp)
  | openFails ho =>
    rw [report_eq]
    have hgone : Abandoned { s with writer := .gone, reader := .ended } := h.goes (by simp [ho]) (by simp)
    exact hgone.same rfl rfl rfl rfl rfl rfl fun hr => ⟨hr, rfl⟩
  | receiveData hw hq => exact h.returns (by simp [hw]) (aborts_eq_nil h hw hq (by simp))
  | receiveFinish hw hq => exact h.returns (by simp [hw]) (aborts_eq_nil h hw hq (by simp))
  | @receiveAbort code rest hw hq =>
    refine ⟨fun _ => rfl, fun hr => absurd hr (h.not_stopped (by simp [hw])), fun abort hm => ?_⟩
    have hhead := h.next_of_waiting hw abort hm
    simp only [hq, List.head?_cons, Option.some.injEq, Chunk.abort.injEq] at hhead
    exact ⟨(h.aborts abort hm).1, .reset rfl (by rw [hhead]) (by rw [hhead])⟩
  | receiveNone hw hq =>
    have hno : s.aborts = [] := by
      by_contra hsome
      obtain ⟨abort, hm⟩ := List.exists_mem_of_ne_nil _ hsome
      simpa [hq] using h.next_of_waiting hw abort hm
    exact h.returns (by simp [hw]) hno
  | progress hw =>
    refine h.listening (by simp [hw, Writer.listening]) ?_ (h.not_stopped (by simp [hw]))
    split
    · rfl
    · rfl
  | writeFails hw =>
    have hno : s.aborts = [] := by
      by_contra hsome
      obtain ⟨abort, hm⟩ := List.exists_mem_of_ne_nil _ hsome
      cases (h.aborts abort hm).2 with
      | next _ hq => exact hc abort.1 (List.mem_of_mem_head? hq)
      | reset hw' => simp [hw] at hw'
      | gone hw' => simp [hw] at hw'
    exact h.returns (by simp [hw]) hno
  | takeAbort _ ha =>
    refine ⟨h.sent, fun _ => ⟨ha.symm, by simp [ha]⟩, fun abort hm => ?_⟩
    obtain ⟨hs, hf⟩ := h.aborts abort hm
    exact ⟨hs, hf.same rfl id rfl rfl⟩
  | read => exact h.same rfl rfl rfl rfl rfl rfl fun hr => ⟨hr, rfl⟩
  | readUnheard => exact h.same rfl rfl rfl rfl rfl rfl fun hr => by simp at hr
  | readEnds =>
    rw [report_eq]
    exact h.same rfl rfl rfl rfl rfl rfl fun hr => by simp at hr
  | dropWriter hl =>
    have hne : s.writer ≠ .returned := by
      intro hw
      simp [hw, Writer.listening] at hl
    refine h.goes hne ?_
    split
    · simp
    · exact h.not_stopped hne
  | dropReader => exact h.same rfl rfl rfl rfl rfl rfl fun hr => by simp at hr
  | getNothing =>
    rw [drained_eq]
    exact h.same rfl rfl rfl rfl rfl rfl fun hr => ⟨hr, rfl⟩
  | getData =>
    rw [drained_eq]
    exact h.same rfl rfl rfl rfl rfl rfl fun hr => ⟨hr, rfl⟩
  | fillData => exact h.same rfl rfl rfl rfl rfl rfl fun hr => ⟨hr, rfl⟩
  | fillEnded => exact h.same rfl rfl rfl rfl rfl rfl fun hr => ⟨hr, rfl⟩
  | fillNone => exact h.same rfl rfl rfl rfl rfl rfl fun hr => ⟨hr, rfl⟩
  | gotData => exact h.same rfl rfl rfl rfl rfl rfl fun hr => ⟨hr, rfl⟩
  | gotNothing => exact h.same rfl rfl rfl rfl rfl rfl fun hr => ⟨hr, rfl⟩
  | getPartialData =>
    rw [drained_eq]
    exact h.same rfl rfl rfl rfl rfl rfl fun hr => ⟨hr, rfl⟩
  | look =>
    rw [drained_eq]
    exact h.same rfl rfl rfl rfl rfl rfl fun hr => ⟨hr, rfl⟩

theorem start_abandoned (ours running : Bool) : (start ours running).Abandoned := by
  cases ours <;> cases running <;> exact ⟨by simp [start], by simp [start], by simp [start]⟩
/-! ## What comes before an abort -/

/-- The reader starts with `carry`, and every abort in the queue is one that
returned true. -/
structure Sane (s : Carry) : Prop where
  starting : s.reader = .starting → s.writer = .opening
  queued : ∀ code, .abort code ∈ s.outgoing → ∃ begun, (code, begun) ∈ s.aborts

theorem Sane.same (h : s.Sane) (hr : s'.reader = .starting → s.reader = .starting ∧ s'.writer = s.writer)
    (hq : ∀ code, .abort code ∈ s'.outgoing → .abort code ∈ s.outgoing) (ha : s'.aborts = s.aborts) : s'.Sane := by
  refine ⟨fun hst => ?_, fun code hm => ha ▸ h.queued code (hq code hm)⟩
  obtain ⟨hst, hw⟩ := hr hst
  exact hw.trans (h.starting hst)

theorem enqueue_sane (h : s.Sane) {chunk : Chunk} (hne : ∀ code, chunk ≠ .abort code) : (s.enqueue chunk).Sane := by
  rw [enqueue_eq]
  refine h.same (fun hr => ⟨hr, rfl⟩) (fun code hm => ?_) rfl
  dsimp only at hm
  split at hm
  · rcases List.mem_append.1 hm with hm | hm
    · exact hm
    · exact absurd (List.mem_singleton.1 hm).symm (hne code)
  · exact hm

theorem stepped_sane {a : Act} (h : s.Sane) (hs : Stepped s a s') : s'.Sane := by
  cases hs with
  | write => exact enqueue_sane h (by simp)
  | finish => exact enqueue_sane h (by simp)
  | @abort code _ ha =>
    refine ⟨h.starting, fun c hm => ?_⟩
    rcases List.mem_append.1 hm with hm | hm
    · obtain ⟨begun, hb⟩ := h.queued c hm
      exact ⟨begun, List.mem_append_left _ hb⟩
    · obtain rfl := Chunk.abort.inj (List.mem_singleton.1 hm)
      exact ⟨s.started, by simp⟩
  | abortLate => exact h
  | opened => exact h.same (by simp) (fun _ => id) rfl
  | openFails =>
    rw [report_eq]
    exact h.same (by simp) (fun _ => id) rfl
  | receiveData hw hq | receiveFinish hw hq | receiveAbort hw hq =>
    refine h.same (fun hr => ?_) (fun c hm => by simp [hq, hm]) rfl
    simp [h.starting hr] at hw
  | receiveNone hw | progress hw | writeFails hw =>
    refine h.same (fun hr => ?_) (fun _ => id) rfl
    simp [h.starting hr] at hw
  | takeAbort | readUnheard | dropReader => exact h.same (by simp) (fun _ => id) rfl
  | readEnds =>
    rw [report_eq]
    exact h.same (by simp) (fun _ => id) rfl
  | dropWriter =>
    refine h.same (fun hr => ?_) (fun _ => id) rfl
    dsimp only at hr
    split at hr
    · simp at hr
    · next hne => exact absurd (h.starting hr) hne
  | getNothing | getData | getPartialData | look =>
    rw [drained_eq]
    exact h.same (fun hr => ⟨hr, rfl⟩) (fun _ => id) rfl
  | close | read | fillData | fillEnded | fillNone | gotData | gotNothing =>
    exact h.same (fun hr => ⟨hr, rfl⟩) (fun _ => id) rfl

theorem start_sane (ours running : Bool) : (start ours running).Sane := by
  cases ours <;> cases running <;> exact ⟨by simp [start], by simp [start]⟩

/-- A writer that listens gets to what is first in its queue. -/
theorem reaches_waiting (h : s.Sane) (hl : s.writer.listening = true) :
    ∃ as t, Machine.run step s as = some t ∧ t.writer = .waiting ∧ t.outgoing = s.outgoing ∧ t.started = s.started ∧
      t.aborts = s.aborts ∧ t.reader ≠ .starting ∧ (t.reader = .gone → s.reader = .gone) := by
  cases hw : s.writer with
  | opening =>
    refine ⟨[.opened], { s with writer := .waiting, reader := .looping }, ?_, rfl, rfl, rfl, rfl, by simp, by simp⟩
    simp [Machine.run, step, hw]
  | waiting =>
    refine ⟨[], s, rfl, hw, rfl, rfl, rfl, fun hr => ?_, id⟩
    simp [h.starting hr] at hw
  | writing rest =>
    refine ⟨[.progress rest.length], { s with writer := .waiting }, ?_, rfl, rfl, rfl, rfl, fun hr => ?_, id⟩
    · simp [Machine.run, step, hw]
    · simp [h.starting hr] at hw
  | returned => simp [hw, Writer.listening] at hl
  | gone => simp [hw, Writer.listening] at hl

/-- A writer that has returned without carrying out an abort never will. -/
theorem broken_of_half (hw : s.writer = .returned) (hr : s.reader ≠ .starting ∧ s.reader ≠ .gone)
    {abort : UInt32 × List Bytes} (hm : abort ∈ s.aborts) (hh : s.half ≠ .reset abort.1) :
    ∃ as t, Machine.run step s as = some t ∧ ¬ t.Honoured := by
  have hbroken : ∀ t : Carry, t.writer = .returned → t.half = s.half → t.aborts = s.aborts →
      t.reader = .ended ∨ t.reader = .stopped → ¬ t.Honoured := by
    intro t hw' hh' ha' hr' hon
    exact hh (hh' ▸ ((hon abort (ha' ▸ hm)).2 hw' hr').1)
  cases hreader : s.reader with
  | starting => exact absurd hreader hr.1
  | gone => exact absurd hreader hr.2
  | looping =>
    -- The remote finishes.
    refine ⟨[.readEnds none], _, by simp [Machine.run, step, hreader]; rfl, ?_⟩
    rw [report_eq]
    exact hbroken _ hw rfl rfl (.inl rfl)
  | ended => exact ⟨[], s, rfl, hbroken s hw rfl rfl (.inl hreader)⟩
  | stopped => exact ⟨[], s, rfl, hbroken s hw rfl rfl (.inr hreader)⟩

/-- What is first in the queue of a writer that listens, it receives. -/
theorem broken_of_head (h : s.Sane) (hl : s.writer.listening = true) (hr : s.reader ≠ .gone) {chunk : Chunk}
    (hq : s.outgoing.head? = some chunk) {code : UInt32} (hne : chunk ≠ .abort code)
    (hm : (code, s.started) ∈ s.aborts) : ∃ as t, Machine.run step s as = some t ∧ ¬ t.Honoured := by
  obtain ⟨as, t, ht, hwaiting, houtgoing, hstarted, haborts, hstarting, hgone⟩ := reaches_waiting h hl
  have hreader : t.reader ≠ .starting ∧ t.reader ≠ .gone := ⟨hstarting, fun hg => hr (hgone hg)⟩
  obtain ⟨rest, hrest⟩ : ∃ rest, t.outgoing = chunk :: rest := by
    rw [houtgoing]
    exact List.head?_eq_some_iff.1 hq
  have hmt : (code, s.started) ∈ t.aborts := haborts ▸ hm
  -- Either it is data, and begun now, or the writer returns.
  suffices hnext : ∃ u bs v, step t .receive = some u ∧ Machine.run step u bs = some v ∧ ¬ v.Honoured by
    obtain ⟨u, bs, v, hu, hv, hbroken⟩ := hnext
    exact ⟨as ++ .receive :: bs, v, Machine.run_append.2 ⟨t, ht, Machine.run_cons.2 ⟨u, hu, hv⟩⟩, hbroken⟩
  cases chunk with
  | data data =>
    refine ⟨_, [], _, by simp only [step, hwaiting, hrest]; rfl, rfl, fun hon => ?_⟩
    have := (hon _ hmt).1
    simp [hstarted] at this
  | finish =>
    obtain ⟨bs, v, hv, hbroken⟩ := broken_of_half (s := { t with outgoing := rest, writer := .returned, half := .finished })
      rfl hreader hmt (by simp)
    exact ⟨_, bs, v, by simp only [step, hwaiting, hrest], hv, hbroken⟩
  | abort other =>
    obtain ⟨bs, v, hv, hbroken⟩ := broken_of_half
      (s := { t with outgoing := rest, writer := .returned, half := .reset other, aborted := some other })
      rfl hreader hmt (fun he => hne (by rw [Half.reset.inj he]))
    exact ⟨_, bs, v, by simp only [step, hwaiting, hrest], hv, hbroken⟩

/-- A step that does not meet the condition can turn out badly. -/
theorem broken_of_unclear {a : Act} (h : s.Sane) (hc : ¬ s.Clear a) (hs : step s a = some s') (hr : s.reader ≠ .gone) :
    ∃ as t, Machine.run step s' as = some t ∧ ¬ t.Honoured := by
  have hsane := stepped_sane h (step_cases hs)
  cases step_cases hs with
  | @abort code _ ha =>
    simp only [Clear, not_forall] at hc
    obtain ⟨-, -, chunk, hq, hne⟩ := hc
    have hhead : (s.outgoing ++ [Chunk.abort (abortCode code)]).head? = some chunk := by
      rw [List.head?_append, hq]
      rfl
    exact broken_of_head hsane ha.2 hr hhead hne (by simp)
  | abortLate _ ha => exact absurd (fun hheld hl => absurd ⟨hheld, hl⟩ ha) hc
  | writeFails hw =>
    simp only [Clear, not_forall, not_not] at hc
    obtain ⟨code, hm⟩ := hc
    obtain ⟨begun, hb⟩ := h.queued code hm
    refine broken_of_half rfl ⟨fun hst => ?_, hr⟩ hb (by simp)
    simp [h.starting hst] at hw
  | _ => exact absurd trivial hc

/-- **Aborts.** Where every abort is the first thing for the writer to
receive, and no write fails while one waits, it does what it says on every
schedule. Where one is not, or a write fails, there is a schedule on which it
does not. -/
theorem abort_honoured {ours running : Bool} {as : List Act} (h : Machine.run step (start ours running) as = some s) :
    (Machine.Along step Clear (start ours running) as → s.Honoured) ∧
    ∀ a s', ¬ s.Clear a → step s a = some s' → s.reader ≠ .gone →
      ∃ bs t, Machine.run step s' bs = some t ∧ ¬ t.Honoured := by
  have hsane : s.Sane := Machine.run_invariant (fun _ _ _ hI hs => stepped_sane hI (step_cases hs)) h
    (start_sane ours running)
  refine ⟨fun hG => ?_, fun a s' hc hs hr => broken_of_unclear hsane hc hs hr⟩
  exact (Machine.run_invariant_along (fun _ _ _ hI hc hs => stepped_abandoned hI hc (step_cases hs)) h hG
    (start_abandoned ours running)).honoured

/-- One chunk is in `write_all` as the abort is called, and one is written
behind it. -/
theorem abort_honoured_writing : ∃ s, Machine.run step (start true true)
      [.opened, .write [1, 2], .receive, .progress 1, .abort 7, .write [3], .progress 1, .receive, .takeAbort] = some s ∧
    s.started = [[1, 2]] ∧ s.half = .reset 7 ∧ s.stopped = some 7 ∧ s.Honoured := by
  have hrun : (Machine.run step (start true true)
      [.opened, .write [1, 2], .receive, .progress 1, .abort 7, .write [3], .progress 1, .receive, .takeAbort]).map
        (fun s => (s.started, s.half, s.stopped)) = some ([[1, 2]], .reset 7, some 7) := by decide +kernel
  obtain ⟨s, hs, he⟩ := Option.map_eq_some_iff.1 hrun
  simp only [Prod.mk.injEq] at he
  refine ⟨s, hs, he.1, he.2.1, he.2.2, (abort_honoured hs).1 ?_⟩
  simp [Machine.Along, Clear, step, start, call, enqueue, Writer.listening]

/-- Two chunks are queued as the abort returns true, and both are written. -/
theorem abort_behind_data : ∃ s, Machine.run step (start true true)
      [.write [1], .write [2], .abort 7, .opened, .receive, .progress 1, .receive] = some s ∧
    s.aborts = [(7, [])] ∧ s.started = [[1], [2]] ∧ ¬ s.Honoured := by
  have hrun : (Machine.run step (start true true)
      [.write [1], .write [2], .abort 7, .opened, .receive, .progress 1, .receive]).map
        (fun s => (s.aborts, s.started)) = some ([(7, [])], [[1], [2]]) := by decide +kernel
  obtain ⟨s, hs, he⟩ := Option.map_eq_some_iff.1 hrun
  simp only [Prod.mk.injEq] at he
  refine ⟨s, hs, he.1, he.2, fun hon => ?_⟩
  have := (hon (7, []) (by simp [he.1])).1
  simp [he.2] at this

end Gdiroh.Raw.Carry
