/-
What comes out of a stream is what was put in: no byte is lost, repeated or
moved between `put_data` and `get_data`, and the reading end sees a clean end
only behind the last of them (`stream_fidelity`).

At any time, the bytes put before the first finish or close are, from the
front: handed to script, buffered for it, reported by the reader task, in
QUIC's pipe, in the writer's hands, and in its queue (`Conserved`).
-/
import Gdiroh.Lib.Machine
import Gdiroh.Raw.Stream

namespace Gdiroh.Raw

/-- The bytes among the reports. -/
def reported (reports : List Incoming) : Bytes :=
  reports.flatMap fun
    | .data chunk => chunk
    | .ended _ => []

/-- The bytes in the queue that will be written. -/
def queued : List Chunk → Bytes
  | [] => []
  | .data data :: queue => data ++ queued queue
  | .finish :: _ => []

def Writer.rest : Writer → Bytes
  | .writing rest => rest
  | _ => []

/-- Still to receive from its queue. -/
def Writer.Active (w : Writer) : Prop := w ≠ .finished ∧ w ≠ .failed

instance (w : Writer) : Decidable w.Active := inferInstanceAs (Decidable (_ ∧ _))

@[simp] theorem reported_append (xs ys : List Incoming) : reported (xs ++ ys) = reported xs ++ reported ys := by
  simp [reported]

@[simp] theorem reported_data (chunk : Bytes) (reports : List Incoming) :
    reported (.data chunk :: reports) = chunk ++ reported reports := rfl

@[simp] theorem reported_ended (reason : Option String) (reports : List Incoming) :
    reported (.ended reason :: reports) = reported reports := rfl

@[simp] theorem reported_nil : reported [] = [] := rfl

theorem queued_append_data {queue : List Chunk} (h : .finish ∉ queue) (data : Bytes) :
    queued (queue ++ [.data data]) = queued queue ++ data := by
  induction queue with
  | nil => simp [queued]
  | cons chunk queue ih =>
    simp only [List.mem_cons, not_or] at h
    cases chunk with
    | data d => simp [queued, ih h.2]
    | finish => simp at h

/-- Nothing behind a finish is written. -/
theorem queued_append_of_mem {queue : List Chunk} (h : .finish ∈ queue) (chunk : Chunk) :
    queued (queue ++ [chunk]) = queued queue := by
  induction queue with
  | nil => simp at h
  | cons c queue ih =>
    cases c with
    | data d => simp only [List.cons_append, queued, ih (by simpa using h)]
    | finish => rfl

theorem queued_append_finish (queue : List Chunk) : queued (queue ++ [.finish]) = queued queue := by
  induction queue with
  | nil => rfl
  | cons c queue ih =>
    cases c with
    | data d => simp only [List.cons_append, queued, ih]
    | finish => rfl

/-! ## The buffer -/

namespace State

/-- The buffer's count is right. -/
def Counted (s : State) : Prop := s.available = s.buffered.flatten.length

theorem push_counted {s : State} (h : s.Counted) (chunk : Bytes) : (s.push chunk).Counted := by
  simp only [Counted, push, List.flatten_append, List.length_append] at h ⊢
  simp [h]

theorem drain_counted {s : State} (h : s.Counted) (reports : List Incoming) : (s.drain reports).1.Counted := by
  induction reports generalizing s with
  | nil => exact h
  | cons report reports ih =>
    cases report with
    | data chunk => exact ih (push_counted h chunk)
    | ended reason => exact h

/-- Draining moves bytes from the reports to the buffer. -/
theorem drain_bytes (s : State) (reports : List Incoming) :
    (s.drain reports).1.buffered.flatten ++ reported (s.drain reports).2 =
      s.buffered.flatten ++ reported reports := by
  induction reports generalizing s with
  | nil => rfl
  | cons report reports ih =>
    cases report with
    | data chunk => simp only [drain, ih, push, List.flatten_append, List.flatten_singleton, List.append_assoc,
        reported_data]
    | ended reason => rfl

/-- Up to an end among the reports, draining takes all of them. -/
theorem drain_append_ended {s : State} {reports : List Incoming} (h : ∀ r, .ended r ∉ reports) (reason : Option String) :
    (s.drain (reports ++ [.ended reason])).1.ended = some reason ∧ (s.drain (reports ++ [.ended reason])).2 = [] := by
  induction reports generalizing s with
  | nil => exact ⟨rfl, rfl⟩
  | cons report reports ih =>
    cases report with
    | data chunk => exact ih fun r hm => h r (by simp [hm])
    | ended r => exact absurd (by simp) (h r)

theorem drain_of_no_end {s : State} {reports : List Incoming} (h : ∀ r, .ended r ∉ reports) :
    (s.drain reports).1.ended = s.ended ∧ (s.drain reports).2 = [] := by
  induction reports generalizing s with
  | nil => exact ⟨rfl, rfl⟩
  | cons report reports ih =>
    cases report with
    | data chunk => exact ih (s := s.push chunk) fun r hm => h r (by simp [hm])
    | ended r => exact absurd (by simp) (h r)

/-- What is copied out and what stays are the buffer, and as much is copied
as was wanted and there. -/
theorem takeChunks_spec (buffered : List Bytes) (wanted : Nat) :
    (takeChunks buffered wanted).1 ++ (takeChunks buffered wanted).2.flatten = buffered.flatten ∧
      (takeChunks buffered wanted).1.length = min wanted buffered.flatten.length := by
  induction buffered generalizing wanted with
  | nil => cases wanted <;> simp [takeChunks]
  | cons chunk buffered ih =>
    cases wanted with
    | zero => simp [takeChunks]
    | succ wanted =>
      simp only [takeChunks]
      split
      · next hempty =>
        simp only [List.isEmpty_iff, List.drop_eq_nil_iff] at hempty
        obtain ⟨hbytes, hlength⟩ := ih (wanted + 1 - min chunk.length (wanted + 1))
        have htake : chunk.take (min chunk.length (wanted + 1)) = chunk := List.take_of_length_le hempty
        simp only [htake, List.append_assoc, hbytes, List.flatten_cons, List.length_append, hlength, true_and]
        omega
      · next hleft =>
        simp only [List.isEmpty_iff, List.drop_eq_nil_iff] at hleft
        refine ⟨by simp [← List.append_assoc], ?_⟩
        simp only [List.length_take, List.flatten_cons, List.length_append]
        omega

theorem take_bytes (s : State) (wanted : Nat) :
    (s.take wanted).2 ++ (s.take wanted).1.buffered.flatten = s.buffered.flatten :=
  (takeChunks_spec s.buffered wanted).1

theorem take_counted {s : State} (h : s.Counted) (wanted : Nat) : (s.take wanted).1.Counted := by
  have hbytes := congrArg List.length (take_bytes s wanted)
  simp only [List.length_append] at hbytes
  simp only [Counted] at h ⊢
  show s.available - (s.take wanted).2.length = _
  omega

end State

/-! ## Along the line -/

namespace Line

variable {l l' : Line}

/-- Read off the pipe. -/
def ahead (l : Line) : Bytes := l.returned ++ l.state.buffered.flatten ++ reported l.reports

/-- Not yet written to the pipe. -/
def behind (l : Line) : Bytes := l.writer.rest ++ if l.writer.Active then queued l.queue else []

/-- Every byte put is somewhere along the line, in order; only a writer that
has failed leaves some behind. -/
def Conserved (l : Line) : Prop :=
  ∃ lost, l.put = l.ahead ++ l.pipe ++ l.behind ++ lost ∧ (l.writer ≠ .failed → lost = [])

/-- A line before and after the first finish or close. -/
structure Stopping (l : Line) : Prop where
  before : l.stopped = false → l.held = true ∧ .finish ∉ l.queue ∧ l.writer ≠ .finished
  after : l.stopped = true → l.held = true → .finish ∈ l.queue ∨ ¬ l.writer.Active

/-- An end may be reported: a clean one once the writer has finished and its
bytes are read. -/
def Ended (l : Line) (reason : Option String) : Prop := reason = none → l.writer = .finished ∧ l.pipe = []

/-- The reader task reports one end, and that last. -/
inductive Ending (l : Line) : Prop
  | reading (hr : l.reading = true) (he : l.state.ended = none) (hno : ∀ r, .ended r ∉ l.reports)
  | reported {reports : List Incoming} {reason : Option String} (hr : l.reading = false)
      (he : l.state.ended = none) (hno : ∀ r, .ended r ∉ reports) (heq : l.reports = reports ++ [.ended reason])
      (hend : l.Ended reason)
  | seen {reason : Option String} (hr : l.reading = false) (he : l.state.ended = some reason)
      (heq : l.reports = []) (hend : l.Ended reason)

structure Faithful (l : Line) : Prop where
  conserved : l.Conserved
  counted : l.state.Counted
  stopping : l.Stopping
  ending : l.Ending

theorem Ending.mono (h : l.Ending) (hr : l'.reading = l.reading) (he : l'.state.ended = l.state.ended)
    (hq : l'.reports = l.reports)
    (hw : l.writer = .finished → l.pipe = [] → l'.writer = .finished ∧ l'.pipe = []) : l'.Ending := by
  cases h with
  | reading hr' he' hno => exact .reading (hr.trans hr') (he.trans he') (hq ▸ hno)
  | reported hr' he' hno heq hend =>
    exact .reported (hr.trans hr') (he.trans he') hno (hq.trans heq) fun hn => hw (hend hn).1 (hend hn).2
  | seen hr' he' heq hend =>
    exact .seen (hr.trans hr') (he.trans he') (hq.trans heq) fun hn => hw (hend hn).1 (hend hn).2

/-! ## The writing end -/

theorem enqueue_of_active (h : l.writer.Active) (chunk : Chunk) :
    l.enqueue chunk = { l with queue := l.queue ++ [chunk] } := by
  unfold enqueue
  split
  · next hw => exact absurd hw h.1
  · next hw => exact absurd hw h.2
  · rfl

theorem enqueue_of_not_active (h : ¬ l.writer.Active) (chunk : Chunk) : l.enqueue chunk = l := by
  unfold enqueue
  split
  · rfl
  · rfl
  · next hf hl => exact absurd ⟨hf, hl⟩ h

theorem put_faithful {data : Bytes} (h : l.Faithful) (hs : step l (.put data) = some l') : l'.Faithful := by
  simp only [step] at hs
  split at hs
  · exact Option.some.inj hs ▸ h
  next hg =>
  simp only [Bool.not_eq_true, Bool.not_eq_false, not_or] at hg
  obtain ⟨lost, hput, hlost⟩ := h.conserved
  simp only [Option.some.injEq] at hs
  subst hs
  by_cases hact : l.writer.Active
  · cases hst : l.stopped with
    | true =>
      have hm := (h.stopping.after hst hg.1).resolve_right (not_not_intro hact)
      simp only [if_true]
      rw [enqueue_of_active hact]
      refine ⟨⟨lost, ?_, hlost⟩, h.counted, ⟨by simp [hst], fun _ _ => .inl (by simp [hm])⟩,
        h.ending.mono rfl rfl rfl fun hw hp => ⟨hw, hp⟩⟩
      simpa only [ahead, behind, queued_append_of_mem hm] using hput
    | false =>
      obtain ⟨hheld, hno, hfin⟩ := h.stopping.before hst
      simp only [Bool.false_eq_true, if_false]
      rw [enqueue_of_active (by exact hact)]
      refine ⟨⟨[], ?_, fun _ => rfl⟩, h.counted, ⟨fun _ => ⟨hheld, by simpa using hno, hfin⟩, by simp⟩,
        h.ending.mono rfl rfl rfl fun hw hp => ⟨hw, hp⟩⟩
      rw [hlost hact.2] at hput
      simp only [ahead, behind, if_pos hact] at hput ⊢
      simp [hput, queued_append_data hno]
  · cases hst : l.stopped with
    | true =>
      simp only [if_true]
      rw [enqueue_of_not_active hact]
      exact h
    | false =>
      obtain ⟨hheld, hno, hfin⟩ := h.stopping.before hst
      have hfailed : l.writer = .failed := by
        by_contra hne
        exact hact ⟨hfin, hne⟩
      simp only [Bool.false_eq_true, if_false]
      rw [enqueue_of_not_active (by exact hact)]
      refine ⟨⟨lost ++ data, ?_, fun hne => absurd hfailed hne⟩, h.counted,
        ⟨fun _ => ⟨hheld, hno, hfin⟩, by simp⟩, h.ending.mono rfl rfl rfl fun hw hp => ⟨hw, hp⟩⟩
      simp only [ahead, behind] at hput ⊢
      simp [hput]

theorem finish_faithful (h : l.Faithful) (hs : step l .finish = some l') : l'.Faithful := by
  simp only [step] at hs
  split at hs
  · next hheld =>
    simp only [Option.some.injEq] at hs
    subst hs
    obtain ⟨lost, hput, hlost⟩ := h.conserved
    by_cases hact : l.writer.Active
    · rw [enqueue_of_active (by exact hact)]
      refine ⟨⟨lost, ?_, hlost⟩, h.counted, ⟨by simp, fun _ _ => .inl (by simp)⟩,
        h.ending.mono rfl rfl rfl fun hw hp => ⟨hw, hp⟩⟩
      simpa only [ahead, behind, queued_append_finish] using hput
    · rw [enqueue_of_not_active (by exact hact)]
      exact ⟨⟨lost, hput, hlost⟩, h.counted, ⟨by simp, fun _ _ => .inr hact⟩,
        h.ending.mono rfl rfl rfl fun hw hp => ⟨hw, hp⟩⟩
  · exact Option.some.inj hs ▸ h

theorem close_faithful (h : l.Faithful) (hs : step l .close = some l') : l'.Faithful := by
  simp only [step, Option.some.injEq] at hs
  subst hs
  exact ⟨h.conserved, h.counted, ⟨by simp, by simp⟩, h.ending.mono rfl rfl rfl fun hw hp => ⟨hw, hp⟩⟩

theorem opened_faithful (h : l.Faithful) (hs : step l .opened = some l') : l'.Faithful := by
  simp only [step] at hs
  split at hs
  · next hw =>
    simp only [Option.some.injEq] at hs
    subst hs
    obtain ⟨lost, hput, hlost⟩ := h.conserved
    refine ⟨⟨lost, ?_, fun _ => hlost (by simp [hw])⟩, h.counted, ⟨fun hst => ?_, fun hst hheld => ?_⟩,
      h.ending.mono rfl rfl rfl fun hf => by simp [hw] at hf⟩
    · simpa [ahead, behind, hw, Writer.rest, Writer.Active] using hput
    · have := h.stopping.before hst
      exact ⟨this.1, this.2.1, by simp⟩
    · have := h.stopping.after hst hheld
      simpa [hw, Writer.Active] using this
  · simp at hs

theorem receive_faithful (h : l.Faithful) (hs : step l .receive = some l') : l'.Faithful := by
  obtain ⟨lost, hput, hlost⟩ := h.conserved
  simp only [step] at hs
  split at hs
  · next data queue hw hq =>
    simp only [Option.some.injEq] at hs
    subst hs
    refine ⟨⟨lost, ?_, fun _ => hlost (by simp [hw])⟩, h.counted, ⟨fun hst => ?_, fun hst hheld => ?_⟩,
      h.ending.mono rfl rfl rfl fun hf => by simp [hw] at hf⟩
    · simpa [ahead, behind, hw, hq, Writer.rest, Writer.Active, queued] using hput
    · have := h.stopping.before hst
      rw [hq, List.mem_cons, not_or] at this
      exact ⟨this.1, this.2.1.2, by simp⟩
    · have := h.stopping.after hst hheld
      simpa [hw, hq, Writer.Active] using this
  · next queue hw hq =>
    simp only [Option.some.injEq] at hs
    subst hs
    refine ⟨⟨lost, ?_, fun _ => hlost (by simp [hw])⟩, h.counted, ⟨fun hst => ?_, fun _ _ => .inr (by simp [Writer.Active])⟩,
      h.ending.mono rfl rfl rfl fun hf => by simp [hw] at hf⟩
    · simpa [ahead, behind, hw, hq, Writer.rest, Writer.Active, queued] using hput
    · have := (h.stopping.before hst).2.1
      simp [hq] at this
  · next hw hq =>
    split at hs
    · simp at hs
    · next hheld =>
      simp only [Option.some.injEq] at hs
      subst hs
      refine ⟨⟨lost, ?_, fun _ => hlost (by simp [hw])⟩, h.counted,
        ⟨fun hst => ?_, fun _ _ => .inr (by simp [Writer.Active])⟩,
        h.ending.mono rfl rfl rfl fun hf => by simp [hw] at hf⟩
      · simpa [ahead, behind, hw, hq, Writer.rest, Writer.Active, queued] using hput
      · exact absurd (h.stopping.before hst).1 hheld
  · simp at hs

theorem write_faithful {n : Nat} (h : l.Faithful) (hs : step l (.write n) = some l') : l'.Faithful := by
  obtain ⟨lost, hput, hlost⟩ := h.conserved
  simp only [step] at hs
  split at hs
  · next rest hw =>
    simp only [Option.some.injEq] at hs
    subst hs
    have hwriter : ∀ w : Writer, w = (if (rest.drop n).isEmpty then Writer.waiting else .writing (rest.drop n)) →
        w.Active ∧ w.rest = rest.drop n := by
      rintro w rfl
      split
      · next he => exact ⟨by simp [Writer.Active], (List.isEmpty_iff.1 he).symm⟩
      · exact ⟨by simp [Writer.Active], rfl⟩
    obtain ⟨hact, hrest⟩ := hwriter _ rfl
    refine ⟨⟨lost, ?_, fun _ => hlost (by simp [hw])⟩, h.counted, ⟨fun hst => ?_, fun hst hheld => ?_⟩,
      h.ending.mono rfl rfl rfl fun hf => by simp [hw] at hf⟩
    · simp only [ahead, behind, if_pos hact, hrest]
      have hsplit : ∀ bytes, rest.take n ++ (rest.drop n ++ bytes) = rest ++ bytes := by
        intro bytes
        rw [← List.append_assoc, List.take_append_drop]
      rw [hput]
      simp [ahead, behind, hw, Writer.rest, Writer.Active, hsplit]
    · have := h.stopping.before hst
      exact ⟨this.1, this.2.1, hact.1⟩
    · have := h.stopping.after hst hheld
      exact .inl (by simpa [hw, Writer.Active] using this)
  · simp at hs

theorem writeFails_faithful (h : l.Faithful) (hs : step l .writeFails = some l') : l'.Faithful := by
  obtain ⟨lost, hput, hlost⟩ := h.conserved
  have hfail : l.writer ≠ .finished → Faithful { l with writer := .failed } := by
    intro hne
    refine ⟨⟨l.behind ++ lost, ?_, by simp⟩, h.counted, ⟨fun hst => ?_, fun _ _ => .inr (by simp [Writer.Active])⟩,
      h.ending.mono rfl rfl rfl fun hf => absurd hf hne⟩
    · rw [hput]
      simp [ahead, behind, Writer.rest, Writer.Active]
    · have := h.stopping.before hst
      exact ⟨this.1, this.2.1, by simp⟩
  simp only [step] at hs
  split at hs
  · next hw => exact Option.some.inj hs ▸ hfail (by simp [hw])
  · next hw => exact Option.some.inj hs ▸ hfail (by simp [hw])
  · simp at hs

/-! ## The reader task -/

theorem read_faithful {n : Nat} (h : l.Faithful) (hs : step l (.read n) = some l') : l'.Faithful := by
  obtain ⟨lost, hput, hlost⟩ := h.conserved
  simp only [step] at hs
  split at hs
  · next hg =>
    simp only [Option.some.injEq] at hs
    subst hs
    refine ⟨⟨lost, ?_, hlost⟩, h.counted, ⟨h.stopping.before, h.stopping.after⟩, ?_⟩
    · rw [hput]
      simp only [ahead, behind, reported_append, reported_data, reported_nil, List.append_nil]
      nth_rewrite 1 [← List.take_append_drop n l.pipe]
      simp
    · cases h.ending with
      | reading hr he hno => exact .reading hr he (by simpa using hno)
      | reported hr => simp [hr] at hg
      | seen hr => simp [hr] at hg
  · simp at hs

/-- The reader task reports an end. -/
theorem report_faithful {reason : Option String} (h : l.Faithful) (hr : l.reading = true) (hend : l.Ended reason) :
    Faithful { l with reading := false, reports := l.reports ++ [.ended reason] } := by
  obtain ⟨lost, hput, hlost⟩ := h.conserved
  refine ⟨⟨lost, ?_, hlost⟩, h.counted, ⟨h.stopping.before, h.stopping.after⟩, ?_⟩
  · rw [hput]
    simp [ahead, behind]
  · cases h.ending with
    | reading _ he hno => exact .reported rfl he hno rfl hend
    | reported hr' => simp [hr] at hr'
    | seen hr' => simp [hr] at hr'

/-! ## The reading end -/

theorem drained_faithful (h : l.Faithful) : l.drained.Faithful := by
  obtain ⟨lost, hput, hlost⟩ := h.conserved
  have hahead : l.drained.ahead = l.ahead := by
    simp only [ahead, drained, List.append_assoc, State.drain_bytes]
  refine ⟨⟨lost, ?_, hlost⟩, State.drain_counted h.counted _, ⟨h.stopping.before, h.stopping.after⟩, ?_⟩
  · rw [hahead]
    exact hput
  · cases h.ending with
    | reading hr he hno =>
      obtain ⟨hended, hrest⟩ := State.drain_of_no_end (s := l.state) hno
      refine .reading hr (hended.trans he) ?_
      simp [drained, hrest]
    | @reported reports reason hr he hno heq hend =>
      obtain ⟨hended, hrest⟩ := State.drain_append_ended (s := l.state) hno reason
      exact .seen hr (by rw [drained, heq]; exact hended) (by simp only [drained, heq, hrest]) hend
    | @seen reason hr he heq hend =>
      exact .seen hr (by rw [drained, heq]; exact he) (by simp only [drained, heq]; rfl) hend

theorem hand_faithful (h : l.Faithful) (wanted : Nat) : (l.hand wanted).Faithful := by
  obtain ⟨lost, hput, hlost⟩ := h.conserved
  have hahead : (l.hand wanted).ahead = l.ahead := by
    simp only [ahead, hand, List.append_assoc]
    rw [← List.append_assoc (l.state.take wanted).2, State.take_bytes]
  refine ⟨⟨lost, ?_, hlost⟩, State.take_counted h.counted _, ⟨h.stopping.before, h.stopping.after⟩,
    h.ending.mono rfl rfl rfl fun hw hp => ⟨hw, hp⟩⟩
  rw [hahead]
  exact hput

/-- What `get_data` waits for does not matter to what it waits on. -/
theorem Faithful.wanted (h : l.Faithful) (wanted : Option Nat) : Faithful { l with wanted := wanted } :=
  ⟨h.conserved, h.counted, ⟨h.stopping.before, h.stopping.after⟩, h.ending.mono rfl rfl rfl fun hw hp => ⟨hw, hp⟩⟩

theorem fill_faithful (h : l.Faithful) (hs : step l .fill = some l') : l'.Faithful := by
  obtain ⟨lost, hput, hlost⟩ := h.conserved
  simp only [step] at hs
  split at hs
  · simp at hs
  split at hs
  · next hg =>
    have hnone : l.state.ended = none := Option.isNone_iff_eq_none.1 hg.2
    split at hs
    · next chunk reports heq =>
      simp only [Option.some.injEq] at hs
      subst hs
      refine ⟨⟨lost, ?_, hlost⟩, State.push_counted h.counted chunk, ⟨h.stopping.before, h.stopping.after⟩, ?_⟩
      · rw [hput]
        simp [ahead, behind, heq, State.push]
      · cases h.ending with
        | reading hr he hno => exact .reading hr he fun r hm => hno r (by simp [heq, hm])
        | @reported before reason hr he hno heq' hend =>
          rw [heq] at heq'
          cases before with
          | nil => simp at heq'
          | cons report before =>
            simp only [List.cons_append, List.cons.injEq] at heq'
            exact .reported hr he (fun r hm => hno r (by simp [hm])) heq'.2 hend
        | seen hr he => simp [hnone] at he
    · next reason reports heq =>
      simp only [Option.some.injEq] at hs
      subst hs
      refine ⟨⟨lost, ?_, hlost⟩, h.counted, ⟨h.stopping.before, h.stopping.after⟩, ?_⟩
      · rw [hput]
        simp [ahead, behind, heq]
      · cases h.ending with
        | reading hr he hno => exact absurd (by simp [heq]) (hno reason)
        | @reported before reason' hr he hno heq' hend =>
          rw [heq] at heq'
          cases before with
          | nil =>
            simp only [List.nil_append, List.cons.injEq, Incoming.ended.injEq] at heq'
            obtain ⟨rfl, rfl⟩ := heq'
            exact .seen hr rfl rfl hend
          | cons report before =>
            simp only [List.cons_append, List.cons.injEq] at heq'
            exact absurd (by simp [← heq'.1]) (hno reason)
        | seen hr he => simp [hnone] at he
    · next heq =>
      split at hs
      · simp at hs
      next hr =>
      -- The reader task does not leave without reporting an end.
      cases h.ending with
      | reading hr' => exact absurd hr' hr
      | reported _ _ _ heq' => simp [heq] at heq'
      | seen _ he => simp [hnone] at he
  · simp at hs

theorem call_faithful {f : Line → Line} (h : l.Faithful) (hf : ∀ m : Line, m.Faithful → (f m).Faithful)
    (hs : l.call f = some l') : l'.Faithful := by
  unfold call at hs
  split at hs
  · exact Option.some.inj hs ▸ hf _ (drained_faithful h)
  · simp at hs

theorem step_faithful {a : Act} (h : l.Faithful) (hs : step l a = some l') : l'.Faithful := by
  cases a with
  | put data => exact put_faithful h hs
  | finish => exact finish_faithful h hs
  | close => exact close_faithful h hs
  | opened => exact opened_faithful h hs
  | receive => exact receive_faithful h hs
  | write n => exact write_faithful h hs
  | writeFails => exact writeFails_faithful h hs
  | read n => exact read_faithful h hs
  | readEnds =>
    simp only [step] at hs
    split at hs
    · next hg => exact Option.some.inj hs ▸ report_faithful h hg.1 fun _ => hg.2
    · simp at hs
  | readFails text =>
    simp only [step] at hs
    split at hs
    · next hg => exact Option.some.inj hs ▸ report_faithful h hg fun hn => by simp at hn
    · simp at hs
  | getData bytes =>
    simp only [step] at hs
    refine call_faithful h (fun m hm => ?_) hs
    split
    · exact hm
    · exact hm.wanted _
  | fill => exact fill_faithful h hs
  | gotData =>
    simp only [step] at hs
    split at hs
    · simp at hs
    split at hs
    · exact Option.some.inj hs ▸ hand_faithful (h.wanted none) _
    split at hs
    · exact Option.some.inj hs ▸ h.wanted none
    · simp at hs
  | getPartialData bytes => exact call_faithful h (fun m hm => hand_faithful hm _) hs
  | look => exact call_faithful h (fun m hm => hm) hs

theorem faithful_run {as : List Act} (h : Machine.run step {} as = some l) : l.Faithful := by
  refine Machine.run_invariant (I := Faithful) (fun s a s' hI hs => step_faithful hI hs) h ?_
  exact ⟨⟨[], rfl, fun _ => rfl⟩, rfl, ⟨by simp, by simp⟩, .reading rfl rfl (by simp)⟩

/-! ## The end of a stream -/

/-- The texts of QUIC's errors are not empty. -/
def Described : Act → Prop
  | .readFails text => text ≠ ""
  | _ => True

/-- No empty text is reported. -/
structure Worded (l : Line) : Prop where
  reports : ∀ text, .ended (some text) ∈ l.reports → text ≠ ""
  ended : ∀ text, l.state.ended = some (some text) → text ≠ ""

theorem drain_ended (s : State) (reports : List Incoming) :
    ((s.drain reports).1.ended = s.ended ∨ ∃ reason, .ended reason ∈ reports ∧ (s.drain reports).1.ended = some reason) ∧
      ∀ report ∈ (s.drain reports).2, report ∈ reports := by
  induction reports generalizing s with
  | nil => exact ⟨.inl rfl, fun _ => id⟩
  | cons report reports ih =>
    cases report with
    | data chunk =>
      obtain ⟨hended, hrest⟩ := ih (s.push chunk)
      refine ⟨hended.imp_right ?_, fun r hr => List.mem_cons_of_mem _ (hrest r hr)⟩
      rintro ⟨reason, hm, he⟩
      exact ⟨reason, List.mem_cons_of_mem _ hm, he⟩
    | ended reason => exact ⟨.inr ⟨reason, by simp, rfl⟩, fun r hr => List.mem_cons_of_mem _ hr⟩

theorem drained_worded (h : l.Worded) : l.drained.Worded := by
  obtain ⟨hended, hrest⟩ := drain_ended l.state l.reports
  refine ⟨fun text hm => h.reports text (hrest _ hm), fun text he => ?_⟩
  rcases hended with hsame | ⟨reason, hm, hreason⟩
  · exact h.ended text (hsame ▸ he)
  · have he' : reason = some text := Option.some.inj (hreason.symm.trans he)
    exact h.reports text (he' ▸ hm)

theorem call_worded {f : Line → Line} (h : l.Worded) (hf : ∀ m : Line, m.Worded → (f m).Worded)
    (hs : l.call f = some l') : l'.Worded := by
  unfold call at hs
  split at hs
  · exact Option.some.inj hs ▸ hf _ (drained_worded h)
  · simp at hs

theorem Worded.same (h : l.Worded) (hq : l'.reports = l.reports) (he : l'.state.ended = l.state.ended) : l'.Worded :=
  ⟨hq ▸ h.reports, he ▸ h.ended⟩

theorem enqueue_worded (h : l.Worded) (chunk : Chunk) : (l.enqueue chunk).Worded := by
  unfold enqueue
  split
  · exact h
  · exact h
  · exact h.same rfl rfl

/-- One more report, of nothing but bytes or in words. -/
theorem Worded.report (h : l.Worded) {report : Incoming} (hr : ∀ text, report = .ended (some text) → text ≠ "")
    (hq : l'.reports = l.reports ++ [report]) (he : l'.state = l.state) : l'.Worded := by
  refine ⟨fun text hm => ?_, he ▸ h.ended⟩
  rcases List.mem_append.1 (hq ▸ hm) with hm | hm
  · exact h.reports text hm
  · exact hr text (List.mem_singleton.1 hm).symm

theorem fill_worded (h : l.Worded) (hs : step l .fill = some l') : l'.Worded := by
  simp only [step] at hs
  split at hs
  · simp at hs
  split at hs
  · split at hs
    · next chunk reports heq =>
      simp only [Option.some.injEq] at hs
      subst hs
      exact ⟨fun text hm => h.reports text (by simp [heq, hm]), h.ended⟩
    · next reason reports heq =>
      simp only [Option.some.injEq] at hs
      subst hs
      refine ⟨fun text hm => h.reports text (by simp [heq, hm]), fun text he => h.reports text ?_⟩
      simp only [Option.some.injEq] at he
      simp [heq, he]
    · split at hs
      · simp at hs
      · simp only [Option.some.injEq] at hs
        subst hs
        refine ⟨h.reports, fun text he => ?_⟩
        simp only [Option.some.injEq] at he
        simp [← he]
  · simp at hs

theorem step_worded {a : Act} (h : l.Worded) (hd : Described a) (hs : step l a = some l') : l'.Worded := by
  cases a with
  | put data =>
    simp only [step] at hs
    split at hs
    · exact Option.some.inj hs ▸ h
    · simp only [Option.some.injEq] at hs
      subst hs
      refine enqueue_worded ?_ _
      split
      · exact h
      · exact h.same rfl rfl
  | finish =>
    simp only [step] at hs
    split at hs
    · simp only [Option.some.injEq] at hs
      subst hs
      refine enqueue_worded ?_ _
      exact h.same rfl rfl
    · exact Option.some.inj hs ▸ h
  | close => exact Option.some.inj hs ▸ h.same rfl rfl
  | opened =>
    simp only [step] at hs
    split at hs
    · exact Option.some.inj hs ▸ h.same rfl rfl
    · simp at hs
  | receive =>
    simp only [step] at hs
    split at hs
    · exact Option.some.inj hs ▸ h.same rfl rfl
    · exact Option.some.inj hs ▸ h.same rfl rfl
    · split at hs
      · simp at hs
      · exact Option.some.inj hs ▸ h.same rfl rfl
    · simp at hs
  | write n =>
    simp only [step] at hs
    split at hs
    · exact Option.some.inj hs ▸ h.same rfl rfl
    · simp at hs
  | writeFails =>
    simp only [step] at hs
    split at hs
    · exact Option.some.inj hs ▸ h.same rfl rfl
    · exact Option.some.inj hs ▸ h.same rfl rfl
    · simp at hs
  | read n =>
    simp only [step] at hs
    split at hs
    · exact Option.some.inj hs ▸ h.report (by simp) rfl rfl
    · simp at hs
  | readEnds =>
    simp only [step] at hs
    split at hs
    · exact Option.some.inj hs ▸ h.report (by simp) rfl rfl
    · simp at hs
  | readFails text =>
    simp only [step] at hs
    split at hs
    · refine Option.some.inj hs ▸ h.report ?_ rfl rfl
      rintro t he
      simp only [Incoming.ended.injEq, Option.some.injEq] at he
      exact he ▸ hd
    · simp at hs
  | getData bytes =>
    simp only [step] at hs
    refine call_worded h (fun m hm => ?_) hs
    split
    · exact hm
    · exact hm.same rfl rfl
  | fill => exact fill_worded h hs
  | gotData =>
    simp only [step] at hs
    split at hs
    · simp at hs
    split at hs
    · exact Option.some.inj hs ▸ h.same rfl rfl
    split at hs
    · exact Option.some.inj hs ▸ h.same rfl rfl
    · simp at hs
  | getPartialData bytes =>
    simp only [step] at hs
    refine call_worded h (fun m hm => ?_) hs
    exact hm.same rfl rfl
  | look => exact call_worded h (fun m hm => hm) hs

theorem worded_run {as : List Act} (h : Machine.run step {} as = some l) (hd : ∀ a ∈ as, Described a) : l.Worded :=
  Machine.run_invariant_along (I := Worded) (G := fun _ a => Described a)
    (fun s a s' hI hG hs => step_worded hI hG hs) h (Machine.along_of_forall (fun a ha _ => hd a ha) _)
    ⟨by simp, by simp⟩

/-- **Stream fidelity.** The bytes handed to script so far are a prefix of
those put before the first finish or close; and they are all of them, once
`is_open` is false, `get_error` empty and no byte available. -/
theorem stream_fidelity {as : List Act} (h : Machine.run step {} as = some l) :
    l.returned <+: l.put ∧
      ((∀ a ∈ as, Described a) → l.isOpen = false → l.getError = "" → l.getAvailableBytes = 0 → l.returned = l.put) := by
  have hf := faithful_run h
  refine ⟨?_, fun hd hopen herror havailable => ?_⟩
  · obtain ⟨lost, hput, -⟩ := hf.conserved
    rw [hput]
    simp [ahead]
  have hm := drained_faithful hf
  have hworded := drained_worded (worded_run h hd)
  have hempty : l.drained.state.buffered.flatten = [] := by
    rw [getAvailableBytes] at havailable
    have hcount : l.drained.state.available = _ := hm.counted
    exact List.eq_nil_of_length_eq_zero (by omega)
  have hnone : ∀ reason, l.drained.state.ended = some reason → reason = none := by
    intro reason he
    cases reason with
    | none => rfl
    | some text =>
      rw [getError, he] at herror
      exact absurd herror (hworded.ended text he)
  cases hm.ending with
  | reading _ he => simp [isOpen, he] at hopen
  | reported _ he => simp [isOpen, he] at hopen
  | seen _ he heq hend =>
    obtain ⟨hwriter, hpipe⟩ := hend (hnone _ he)
    obtain ⟨lost, hput, hlost⟩ := hm.conserved
    rw [hlost (by simp [hwriter])] at hput
    simp only [ahead, behind, hempty, heq, hpipe, hwriter, Writer.rest, Writer.Active, ne_eq, not_true_eq_false,
      false_and, if_false, reported_nil, List.append_nil] at hput
    exact hput.symm

/-- Five bytes put in two parts and closed, cut elsewhere on their way, and
read with both read calls. -/
theorem stream_fidelity_cutAnew :
    let as : List Act := [.put [1, 2, 3], .opened, .put [4, 5], .close, .receive, .write 2, .read 2, .getData 1, .gotData,
      .write 5, .receive, .write 2, .receive, .getPartialData 9, .getData 2, .read 3, .fill, .gotData,
      .readEnds, .look, .getPartialData 7]
    ∃ l, Machine.run step {} as = some l ∧ (∀ a ∈ as, Described a) ∧ l.put = [1, 2, 3, 4, 5] ∧ l.isOpen = false ∧
      l.getError = "" ∧ l.getAvailableBytes = 0 ∧ l.returned = l.put := by
  intro as
  have hrun : (Machine.run step {} as).map (fun l => (l.put, l.isOpen, l.getError, l.getAvailableBytes)) =
      some ([1, 2, 3, 4, 5], false, "", 0) := by decide +kernel
  have hd : ∀ a ∈ as, Described a := by simp [as, Described]
  obtain ⟨l, hl, he⟩ := Option.map_eq_some_iff.1 hrun
  simp only [Prod.mk.injEq] at he
  obtain ⟨hput, hopen, herror, havailable⟩ := he
  exact ⟨l, hl, hd, hput, hopen, herror, havailable, (stream_fidelity hl).2 hd hopen herror havailable⟩

end Line
end Gdiroh.Raw
