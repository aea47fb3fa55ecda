/-
The two halves of one end of a stream (`Raw.Carry`), as the other end will
see them. `Sends` follows the writer from its queue to the wire, `Reads` the
reader from the wire to what has arrived, and `Sealed` what it reports at the
end, to what script finds there.
-/
import Gdiroh.Raw.Duplex

namespace Gdiroh.Raw

namespace Carry

variable {s s' : Carry} {queued : List Chunk} {written pipe : Bytes}

theorem message_started (started : List Bytes) (rest : List Chunk) :
    message (started.map .data ++ rest) = started.flatten ++ message rest := by
  induction started with
  | nil => rfl
  | cons data started ih =>
    rw [List.map_cons, List.cons_append, message, ih, List.flatten_cons, List.append_assoc]

theorem lastWord_started (started : List Bytes) (rest : List Chunk) :
    lastWord (started.map .data ++ rest) = lastWord rest := by
  induction started with
  | nil => rfl
  | cons data started ih => rw [List.map_cons, List.cons_append, lastWord, ih]

/-! ## The writing side -/

/-- The writer takes its queue in order, and writes what it takes. A write
half is finished only where the message ends. -/
structure Sends (s : Carry) (queued : List Chunk) (written : Bytes) : Prop where
  queue : s.writer.listening = true → queued = s.started.map .data ++ s.outgoing
  progress : s.writer.listening = true → written ++ s.writer.rest = s.started.flatten
  within : written <+: message queued
  half : s.half ≠ .live → s.writer = .returned
  finished : s.half = .finished → written = message queued ∧ s.Farewell queued

theorem Farewell.same (h : s.Farewell queued) (hh : s.held = false → s'.held = false) : s'.Farewell queued :=
  h.imp id fun hnone => ⟨hnone.1, hh hnone.2⟩

/-- Nothing more is queued or written. -/
theorem Sends.still (h : s.Sends queued written) : s.Sends (queued ++ []) (written ++ []) := by
  rwa [List.append_nil, List.append_nil]

/-- A step that leaves the writer alone. -/
theorem Sends.same (h : s.Sends queued written) (hw : s'.writer = s.writer) (hq : s'.outgoing = s.outgoing)
    (hs : s'.started = s.started) (hhalf : s'.half = s.half) (hh : s.held = false → s'.held = false) :
    s'.Sends (queued ++ []) (written ++ []) := by
  refine .still ⟨fun hl => ?_, fun hl => ?_, h.within, fun hne => ?_, fun hf => ?_⟩
  · rw [hs, hq]
    exact h.queue (hw ▸ hl)
  · rw [hw, hs]
    exact h.progress (hw ▸ hl)
  · rw [hw]
    exact h.half (hhalf ▸ hne)
  · obtain ⟨hwhole, hbye⟩ := h.finished (hhalf ▸ hf)
    exact ⟨hwhole, hbye.same hh⟩

theorem Sends.live (h : s.Sends queued written) (hl : s.writer.listening = true) : s.half = .live := by
  by_contra hne
  simp [h.half hne, Writer.listening] at hl

/-- The message up to what the writer has received. -/
theorem Sends.message_eq (h : s.Sends queued written) (hl : s.writer.listening = true) :
    message queued = s.started.flatten ++ message s.outgoing := by
  rw [h.queue hl, message_started]

/-- One more thing is queued. -/
theorem Sends.put (h : s.Sends queued written) (hl : s.writer.listening = true) (chunk : Chunk)
    (hw : s'.writer = s.writer) (hq : s'.outgoing = s.outgoing ++ [chunk]) (hs : s'.started = s.started)
    (hhalf : s'.half = s.half) : s'.Sends (queued ++ [chunk]) (written ++ []) := by
  have hqueue : queued ++ [chunk] = s'.started.map .data ++ s'.outgoing := by
    rw [h.queue hl, hs, hq, List.append_assoc]
  have hlive : s'.half = .live := hhalf.trans (h.live hl)
  rw [List.append_nil]
  refine ⟨fun _ => hqueue, fun _ => ?_, ?_, fun hne => absurd hlive hne, fun hf => by simp [hlive] at hf⟩
  · rw [hw, hs]
    exact h.progress hl
  · rw [hqueue, message_started, hs, ← h.progress hl, List.append_assoc]
    exact List.prefix_append _ _

theorem enqueue_sends (h : s.Sends queued written) (chunk : Chunk) :
    (s.enqueue chunk).Sends (queued ++ if s.held ∧ s.writer.listening then [chunk] else []) (written ++ []) := by
  unfold enqueue
  split
  · next hl => exact h.put hl.2 chunk rfl rfl rfl rfl
  · exact h.same rfl rfl rfl rfl id

/-- The writer leaves with something unsaid. -/
theorem Sends.leaves (h : s.Sends queued written) (hl : s'.writer.listening = false) (hhalf : s'.half ≠ .finished)
    (hret : s'.half ≠ .live → s'.writer = .returned) : s'.Sends (queued ++ []) (written ++ []) := by
  exact .still ⟨fun hl' => by simp [hl] at hl', fun hl' => by simp [hl] at hl', h.within, hret,
    fun hf => absurd hf hhalf⟩

/-- While the writer waits, all it received is written. -/
theorem Sends.waiting (h : s.Sends queued written) (hw : s.writer = .waiting) :
    queued = s.started.map .data ++ s.outgoing ∧ written = s.started.flatten := by
  have hl : s.writer.listening = true := by rw [hw]; rfl
  refine ⟨h.queue hl, ?_⟩
  simpa [hw, Writer.rest] using h.progress hl

theorem stepped_sends {a : Act} (h : s.Sends queued written) (hs : Stepped s a s') :
    s'.Sends (queued ++ s.puts a) (written ++ s.writes a) := by
  cases hs with
  | write | finish => exact enqueue_sends h _
  | abort _ ha =>
    rw [puts, if_pos ha]
    exact h.put ha.2 _ rfl rfl rfl rfl
  | abortLate _ ha =>
    rw [puts, if_neg ha]
    exact h.same rfl rfl rfl rfl id
  | close => exact h.same rfl rfl rfl rfl fun _ => rfl
  | opened ho =>
    have hl : s.writer.listening = true := by rw [ho]; rfl
    refine .still ⟨fun _ => h.queue hl, fun _ => ?_, h.within, fun hne => absurd (h.live hl) hne, h.finished⟩
    simpa [ho, Writer.rest] using h.progress hl
  | openFails ho =>
    have hl : s.writer.listening = true := by rw [ho]; rfl
    rw [report_eq]
    exact h.leaves rfl (by simp [h.live hl]) fun hne => absurd (h.live hl) hne
  | @receiveData data rest hw hq =>
    obtain ⟨hqueue, hwritten⟩ := h.waiting hw
    have hl : s.writer.listening = true := by rw [hw]; rfl
    refine .still ⟨fun _ => ?_, fun _ => ?_, h.within, fun hne => absurd (h.live hl) hne,
      fun hf => by simp [h.live hl] at hf⟩
    · simp [hqueue, hq]
    · simp [hwritten, Writer.rest]
  | receiveFinish hw hq =>
    obtain ⟨hqueue, hwritten⟩ := h.waiting hw
    refine .still ⟨by simp [Writer.listening], by simp [Writer.listening], h.within, fun _ => rfl,
      fun _ => ⟨?_, .inl ?_⟩⟩
    · rw [hqueue, message_started, hq, hwritten]
      exact (List.append_nil _).symm
    · rw [hqueue, lastWord_started, hq]
      rfl
  | receiveAbort => exact h.leaves rfl (by simp) fun _ => rfl
  | receiveNone hw hq hh =>
    obtain ⟨hqueue, hwritten⟩ := h.waiting hw
    refine .still ⟨by simp [Writer.listening], by simp [Writer.listening], h.within, fun _ => rfl,
      fun _ => ⟨?_, .inr ?_⟩⟩
    · rw [hqueue, message_started, hq, hwritten]
      exact (List.append_nil _).symm
    · exact ⟨by rw [hqueue, lastWord_started, hq, lastWord], hh⟩
  | @progress n rest hw =>
    have hl : s.writer.listening = true := by rw [hw]; rfl
    have hprogress : written ++ rest.take n ++ rest.drop n = s.started.flatten := by
      have := h.progress hl
      rwa [hw, Writer.rest, ← List.take_append_drop n rest, ← List.append_assoc] at this
    have hrest : (if (rest.drop n).isEmpty then Writer.waiting else .writing (rest.drop n)).rest = rest.drop n := by
      split
      · next he => exact (List.isEmpty_iff.1 he).symm
      · rfl
    have hputs : queued ++ s.puts (.progress n) = queued := List.append_nil _
    rw [hputs, writes, hw, Writer.rest]
    refine ⟨fun _ => h.queue hl, fun _ => by rw [hrest]; exact hprogress, ?_, fun hne => absurd (h.live hl) hne,
      fun hf => by simp [h.live hl] at hf⟩
    rw [h.message_eq hl, ← hprogress, List.append_assoc]
    exact List.prefix_append _ _
  | writeFails => exact h.leaves rfl (by simp) fun _ => rfl
  | dropWriter hl => exact h.leaves rfl (by simp [h.live hl]) fun hne => absurd (h.live hl) hne
  | readEnds =>
    rw [report_eq]
    exact h.same rfl rfl rfl rfl id
  | getNothing | getData | getPartialData | look =>
    rw [drained_eq]
    exact h.same rfl rfl rfl rfl id
  | _ => exact h.same rfl rfl rfl rfl id

/-- A writer that has left, its half to be finished or finished, stays that
way. -/
theorem stepped_finishes {a : Act} (h : s.Sends queued written) (hf : s.finishes = true) (hs : Stepped s a s') :
    s'.finishes = true ∧ s.writes a = [] := by
  have hl : s.writer.listening = false := by
    simp only [finishes, Bool.or_eq_true, Bool.and_eq_true, decide_eq_true_eq] at hf
    rcases hf with hf | ⟨hw, -⟩
    · rw [h.half (by simp [hf])]
      rfl
    · rw [hw]
      rfl
  have hleft : ∀ writer : Writer, writer.listening = true → s.writer ≠ writer := fun writer hl' he => by
    simp [← he, hl] at hl'
  cases hs with
  | write | finish =>
    rw [enqueue_eq]
    exact ⟨hf, rfl⟩
  | abort _ ha => simp [hl] at ha
  | opened hw | openFails hw => exact absurd hw (hleft _ rfl)
  | receiveData hw | receiveFinish hw | receiveAbort hw | receiveNone hw | writeFails hw =>
    exact absurd hw (hleft _ rfl)
  | progress hw => exact absurd hw (hleft _ rfl)
  | dropWriter hl' => simp [hl] at hl'
  | readEnds =>
    rw [report_eq]
    exact ⟨hf, rfl⟩
  | getNothing | getData | getPartialData | look =>
    rw [drained_eq]
    exact ⟨hf, rfl⟩
  | _ => exact ⟨hf, rfl⟩

/-! ## The reading side -/

/-- The reader takes what is on the wire in order. -/
structure Reads (o : Carry) (pipe written : Bytes) : Prop where
  within : o.arrived <+: written
  whole : o.reader.feeding = true → written = o.arrived ++ pipe

/-- The far side writes on. -/
theorem Reads.grow (h : s.Reads pipe written) (more : Bytes) : s.Reads (pipe ++ more) (written ++ more) :=
  ⟨h.within.trans (List.prefix_append _ _), fun hf => by rw [h.whole hf, List.append_assoc]⟩

/-- A step that reads nothing. -/
theorem Reads.same (h : s.Reads pipe written) (harrived : s'.arrived = s.arrived)
    (hf : s'.reader.feeding = true → s.reader.feeding = true) : s'.Reads (pipe.drop 0) written := by
  refine ⟨?_, fun hf' => ?_⟩
  · rw [harrived]
    exact h.within
  · rw [harrived]
    exact h.whole (hf hf')

theorem stepped_reads {a : Act} (h : s.Reads pipe written) (ht : s.Told) (hs : Stepped s a s')
    (hread : ∀ chunk, a = .read chunk → chunk <+: pipe) : s'.Reads (pipe.drop a.taken) written := by
  cases hs with
  | write | finish =>
    rw [enqueue_eq]
    exact h.same rfl id
  | opened ho => exact h.same rfl fun _ => by simp [ht.opening ho, Reader.feeding]
  | openFails | readEnds =>
    rw [report_eq]
    exact h.same rfl (by simp [Reader.feeding])
  | @read chunk hr hh =>
    obtain ⟨rest, rfl⟩ := hread chunk rfl
    have hwhole := h.whole (by rw [hr]; rfl)
    have hdrop : (chunk ++ rest).drop (Act.read chunk).taken = rest := List.drop_left
    rw [hdrop]
    refine ⟨?_, fun _ => ?_⟩
    · rw [hwhole, ← List.append_assoc]
      exact List.prefix_append _ _
    · rw [hwhole, List.append_assoc]
  | readUnheard => exact ⟨h.within, by simp [Reader.feeding]⟩
  | takeAbort | dropReader => exact h.same rfl (by simp [Reader.feeding])
  | dropWriter =>
    refine h.same rfl fun hf => ?_
    dsimp only at hf
    split at hf
    · simp [Reader.feeding] at hf
    · exact hf
  | getNothing | getData | getPartialData | look =>
    rw [drained_eq]
    exact h.same rfl id
  | _ => exact h.same rfl id

/-- What has arrived stays what it is, once the reader has left. -/
theorem stepped_unfed {a : Act} (ht : s.Told) (hf : s.reader.feeding = false) (hs : Stepped s a s') :
    s'.reader.feeding = false ∧ s'.arrived = s.arrived := by
  cases hs with
  | write | finish =>
    rw [enqueue_eq]
    exact ⟨hf, rfl⟩
  | opened ho => simp [ht.opening ho, Reader.feeding] at hf
  | openFails | readEnds =>
    rw [report_eq]
    exact ⟨rfl, rfl⟩
  | read hr => simp [hr, Reader.feeding] at hf
  | readUnheard | takeAbort | dropReader => exact ⟨rfl, rfl⟩
  | dropWriter =>
    refine ⟨?_, rfl⟩
    dsimp only
    split
    · rfl
    · exact hf
  | getNothing | getData | getPartialData | look =>
    rw [drained_eq]
    exact ⟨hf, rfl⟩
  | _ => exact ⟨hf, rfl⟩

/-! ## The end of what there is to read -/

/-- An end among the reports is the last of them, and the only one; once the
main thread has it, there are none. Errors have a text. -/
structure Sealed (s : Carry) : Prop where
  done : s.state.ended.isSome = true → s.reports = []
  feeding : s.reader.feeding = true → s.state.ended = none ∧ ∀ r, .ended r ∉ s.reports
  shape : (∀ r, .ended r ∉ s.reports) ∨ ∃ before r, s.reports = before ++ [.ended r] ∧ ∀ r', .ended r' ∉ before
  worded : ∀ text, .ended (some text) ∈ s.reports ∨ s.state.ended = some (some text) → text ≠ ""

/-- The reader came to a clean end, and the report has not been thrown away. -/
def SawEnd (s : Carry) : Prop := .ended none ∈ s.reports ∨ s.state.ended = some none

theorem Sealed.same (h : s.Sealed) (hr : s'.reader.feeding = true → s.reader.feeding = true)
    (hq : s'.reports = s.reports) (he : s'.state.ended = s.state.ended) : s'.Sealed := by
  refine ⟨?_, fun hf => ?_, ?_, ?_⟩
  · rw [hq, he]
    exact h.done
  · rw [hq, he]
    exact h.feeding (hr hf)
  · rw [hq]
    exact h.shape
  · rw [hq, he]
    exact h.worded

/-- The reader leaves with a report. -/
theorem Sealed.report (h : s.Sealed) (writer : Writer) (hf : s.reader.feeding = true) {reason : Option String}
    (hreason : ∀ text, reason = some text → text ≠ "") :
    Sealed ({ s with writer := writer, reader := .ended }.report (.ended reason)) := by
  obtain ⟨hnone, hno⟩ := h.feeding hf
  rw [report_eq]
  refine ⟨by simp [hnone], by simp [Reader.feeding], ?_, fun text hm => ?_⟩
  · dsimp only
    split
    · exact .inr ⟨s.reports, reason, rfl, hno⟩
    · exact .inl hno
  · dsimp only at hm
    rcases hm with hm | he
    · split at hm
      · rcases List.mem_append.1 hm with hm | hm
        · exact absurd hm (hno _)
        · exact hreason text (by simpa using (List.mem_singleton.1 hm).symm)
      · exact absurd hm (hno _)
    · simp [hnone] at he

/-- All that waits is drained at once. -/
theorem Sealed.rest (h : s.Sealed) : (s.state.drain s.reports).2 = [] := by
  rcases h.shape with hno | ⟨before, r, hq, hno⟩
  · exact (State.drain_of_no_end hno).2
  · rw [hq]
    exact (State.drain_append_ended hno r).2

/-- A drain tells of an end that was reported, or was known before. -/
theorem drain_tells {r : Option String} (he : s.drained.state.ended = some r) :
    .ended r ∈ s.reports ∨ s.state.ended = some r := by
  unfold drained at he
  split at he
  · rcases (Line.drain_ended s.state s.reports).1 with hsame | ⟨reason, hm, hreason⟩
    · exact .inr (hsame ▸ he)
    · obtain rfl : reason = r := Option.some.inj (hreason.symm.trans he)
      exact .inl hm
  · exact .inr he

theorem drained_sealed (h : s.Sealed) : s.drained.Sealed := by
  have htells := fun r => drain_tells (s := s) (r := r)
  unfold drained at htells ⊢
  split
  · next hh =>
    rw [if_pos hh] at htells
    dsimp only at htells
    refine ⟨fun _ => h.rest, fun hf => ?_, .inl ?_, fun text hm => ?_⟩
    · obtain ⟨hnone, hno⟩ := h.feeding hf
      exact ⟨(State.drain_of_no_end hno).1.trans hnone, by simp [h.rest]⟩
    · simp [h.rest]
    · rcases hm with hm | he
      · simp [h.rest] at hm
      · exact h.worded text (htells _ he)
  · exact h

theorem stepped_sealed {a : Act} (h : s.Sealed) (ht : s.Told) (hs : Stepped s a s')
    (hworded : ∀ text, a = .readEnds (some text) ∨ a = .openFails text → text ≠ "") : s'.Sealed := by
  cases hs with
  | write | finish =>
    rw [enqueue_eq]
    exact h.same id rfl rfl
  | close => exact ⟨fun _ => rfl, fun hf => ⟨(h.feeding hf).1, by simp⟩, .inl (by simp), fun text hm =>
      h.worded text (hm.imp (by simp) id)⟩
  | opened ho => exact h.same (fun _ => by simp [ht.opening ho, Reader.feeding]) rfl rfl
  | openFails ho =>
    refine h.report .gone (by simp [ht.opening ho, Reader.feeding]) fun text he => ?_
    exact hworded text (.inr (by simpa using he))
  | readEnds hr =>
    exact h.report s.writer (by simp [hr, Reader.feeding]) fun text he => hworded text (.inl (by rw [he]))
  | read hr =>
    obtain ⟨hnone, hno⟩ := h.feeding (by rw [hr]; rfl)
    refine ⟨by simp [hnone], fun _ => ⟨hnone, by simpa using hno⟩, .inl (by simpa using hno), fun text hm => ?_⟩
    exact absurd hm (by simp [hno, hnone])
  | readUnheard | takeAbort | dropReader => exact h.same (by simp [Reader.feeding]) rfl rfl
  | dropWriter =>
    refine h.same (fun hf => ?_) rfl rfl
    dsimp only at hf
    split at hf
    · simp [Reader.feeding] at hf
    · exact hf
  | getNothing | getData | look => exact (drained_sealed h).same id rfl rfl
  | getPartialData => exact (drained_sealed h).same id rfl rfl
  | @fillData _ chunk reports _ hg hq =>
    refine ⟨fun he => ?_, fun hf => ⟨hg.2.1, fun r hm => ?_⟩, ?_, fun text hm => h.worded text (hm.imp ?_ id)⟩
    · simp [State.push, hg.2.1] at he
    · exact (h.feeding hf).2 r (by simp [hq, hm])
    · rcases h.shape with hno | ⟨before, r, hshape, hno⟩
      · exact .inl fun r hm => hno r (by simp [hq, hm])
      · rw [hq] at hshape
        cases before with
        | nil => simp at hshape
        | cons first before =>
          rw [List.cons_append, List.cons.injEq] at hshape
          exact .inr ⟨before, r, hshape.2, fun r' hm => hno r' (by simp [hm])⟩
    · intro hm
      simp [hq, hm]
  | @fillEnded _ reason reports _ hg hq =>
    have hrest : reports = [] := by
      have := h.rest
      rwa [hq] at this
    refine ⟨fun _ => hrest, fun hf => absurd (by simp [hq]) ((h.feeding hf).2 reason), .inl (by simp [hrest]),
      fun text hm => h.worded text (.inl ?_)⟩
    rcases hm with hm | he
    · simp [hrest] at hm
    · rw [hq, Option.some.inj he]
      exact List.mem_cons_self
  | fillNone _ _ hq hr =>
    exact ⟨fun _ => hq, fun hf => by simp [hr] at hf, .inl (by simp [hq]), fun text hm => by
      rcases hm with hm | he
      · simp [hq] at hm
      · obtain rfl := Option.some.inj (Option.some.inj he)
        simp⟩
  | gotData | gotNothing => exact h.same id rfl rfl
  | _ => exact h.same id rfl rfl

theorem start_sends (ours running : Bool) : (start ours running).Sends [] [] := by
  cases ours <;> cases running <;>
    exact ⟨fun _ => rfl, fun _ => rfl, List.prefix_refl _, by simp [start], by simp [start]⟩

theorem start_sealed (ours running : Bool) : (start ours running).Sealed := by
  refine ⟨?_, ?_, ?_, ?_⟩
  · cases ours <;> cases running <;> simp [start]
  · cases ours <;> cases running <;> simp [start, Reader.feeding]
  · cases ours <;> cases running
    · exact .inl (by simp [start])
    · exact .inl (by simp [start])
    · exact .inr ⟨[], _, rfl, by simp⟩
    · exact .inl (by simp [start])
  · cases ours <;> cases running <;> simp [start]

theorem start_not_sawEnd (ours running : Bool) : ¬ (start ours running).SawEnd := by
  cases ours <;> cases running <;> simp [start, SawEnd]

/-- A new end that has read nothing. -/
theorem start_reads (ours running : Bool) : (start ours running).Reads pipe pipe := by
  cases ours <;> cases running <;> exact ⟨List.nil_prefix, fun _ => rfl⟩

/-- A clean end that was seen is what script finds. -/
theorem Sealed.drained_clean (h : s.Sealed) (hh : s.held = true) (he : s.SawEnd) :
    s.drained.state.ended = some none := by
  rw [drained, if_pos hh]
  rcases he with hm | he
  · rcases h.shape with hno | ⟨before, r, hq, hno⟩
    · exact absurd hm (hno none)
    · rw [hq, List.mem_append, List.mem_singleton] at hm
      have hr : .ended none = Incoming.ended r := hm.resolve_left (hno none)
      rw [hq, Incoming.ended.inj hr]
      exact (State.drain_append_ended hno r).1
  · rw [h.done (by simp [he])]
    exact he

/-- Script finds its stream at an end, and no error: the end was clean. -/
theorem Sealed.sawEnd (h : s.Sealed) (hh : s.held = true) (hopen : s.isOpen = false) (herr : s.getError = "") :
    s.SawEnd := by
  cases he : s.drained.state.ended with
  | none => simp [isOpen, he, hh] at hopen
  | some r =>
    cases r with
    | none => exact drain_tells he
    | some text =>
      simp only [getError, he] at herr
      exact absurd herr (h.worded text (drain_tells he))

/-- Once an end is drained, all that has arrived was handed out or is
buffered. -/
theorem Accounted.drained_whole (h : s.Accounted) (hsealed : s.Sealed) (hh : s.held = true) :
    s.arrived = s.returned ++ s.drained.state.buffered.flatten := by
  have hwhole := (drained_accounted h).whole (by rw [drained_eq]; exact hh)
  have hrest : s.drained.reports = [] := by rw [drained, if_pos hh]; exact hsealed.rest
  rw [hrest, reported_nil, List.append_nil] at hwhole
  simpa only [drained_eq] using hwhole

/-- A clean end is only seen by reading it. -/
theorem stepped_sawEnd {a : Act} (hs : Stepped s a s') (he : s'.SawEnd) : s.SawEnd ∨ a = .readEnds none := by
  have htells : s.drained.SawEnd → s.SawEnd := by
    rintro (hm | he)
    · unfold drained at hm
      split at hm
      · exact .inl ((Line.drain_ended s.state s.reports).2 _ hm)
      · exact .inl hm
    · exact drain_tells he
  cases hs with
  | write | finish =>
    rw [enqueue_eq] at he
    exact .inl he
  | close => exact .inl (he.imp (by simp) id)
  | openFails =>
    rw [report_eq] at he
    refine .inl (he.imp (fun hm => ?_) id)
    dsimp only at hm
    split at hm
    · simpa using hm
    · exact hm
  | @readEnds reason =>
    cases reason with
    | none => exact .inr rfl
    | some text =>
      rw [report_eq] at he
      refine .inl (he.imp (fun hm => ?_) id)
      dsimp only at hm
      split at hm
      · simpa using hm
      · exact hm
  | read => exact .inl (he.imp (fun hm => by simpa using hm) id)
  | getNothing | getData | look => exact .inl (htells he)
  | getPartialData => exact .inl (htells he)
  | fillData _ _ hq => exact .inl (he.imp (fun hm => by simp [hq, hm]) id)
  | fillEnded _ _ hq =>
    refine .inl (.inl ?_)
    rcases he with hm | he
    · simp [hq, hm]
    · rw [hq, Option.some.inj he]
      exact List.mem_cons_self
  | fillNone => exact .inl (he.imp id (by simp))
  | _ => exact .inl he

end Carry
end Gdiroh.Raw
