/-
The reading side of a stream: what `get_data` and `get_partial_data` hand out
(`reads_exact`), and whether `is_open` and a read that would wait agree that
there is nothing more to come (`views_agree_iff`).

The first rests on the buffer's count being right: a read is refused or
granted on the count, and only then taken from the chunks.

The second goes wrong where the reader leaves without a report, because it
took our own abort or because the runtime dropped it. `fill` waits on the
channel and is told that nobody sends any more; `drain` polls it with
`try_recv().ok()`, which makes one of "nothing yet" and "nobody there", and
leaves the stream open for good.
-/
import Gdiroh.Raw.Carry
import Mathlib.Algebra.Ring.Nat

namespace Gdiroh.Raw

/-! ## Taking from the buffer -/

namespace State

/-- The loop of `take`: `filled` is what has been copied so far. A turn drops
the chunk it has used up, an empty one too, or fills the rest. -/
def takeLoop (wanted : Nat) (filled : Bytes) (buffered : List Bytes) : Bytes × List Bytes :=
  if filled.length < wanted then
    match buffered with
    | [] => (filled, [])
    | chunk :: rest =>
      let take := min chunk.length (wanted - filled.length)
      let left := chunk.drop take
      takeLoop wanted (filled ++ chunk.take take) (if left.isEmpty then rest else left :: rest)
  else (filled, buffered)
termination_by wanted - filled.length + buffered.length
decreasing_by
  simp only [List.length_append, List.length_take, List.length_cons]
  split
  · omega
  next hleft =>
    simp only [List.isEmpty_iff, List.drop_eq_nil_iff] at hleft
    simp only [List.length_cons]
    omega

theorem takeChunks_zero (buffered : List Bytes) : takeChunks buffered 0 = ([], buffered) := by
  cases buffered <;> rfl

theorem takeLoop_of_le {wanted : Nat} {filled : Bytes} (h : wanted ≤ filled.length) (buffered : List Bytes) :
    takeLoop wanted filled buffered = (filled, buffered) := by
  rw [takeLoop.eq_def, if_neg (by omega)]

/-- The loop copies what `takeChunks` says. -/
theorem takeLoop_eq (wanted : Nat) (filled : Bytes) (buffered : List Bytes) :
    takeLoop wanted filled buffered =
      (filled ++ (takeChunks buffered (wanted - filled.length)).1,
        (takeChunks buffered (wanted - filled.length)).2) := by
  induction buffered generalizing filled with
  | nil =>
    have hnil : ∀ n, takeChunks [] n = ([], []) := fun n => by cases n <;> rfl
    rw [takeLoop, hnil]
    split <;> simp
  | cons chunk rest ih =>
    by_cases hlt : filled.length < wanted
    · obtain ⟨left, hleft⟩ : ∃ left, wanted - filled.length = left + 1 := ⟨wanted - filled.length - 1, by omega⟩
      rw [takeLoop, if_pos hlt]
      simp only [hleft, takeChunks]
      split
      · next hempty =>
        simp only [List.isEmpty_iff, List.drop_eq_nil_iff] at hempty
        rw [ih, List.length_append, List.length_take]
        have hwanted : wanted - (filled.length + min (min chunk.length (left + 1)) chunk.length) =
            left + 1 - min chunk.length (left + 1) := by omega
        rw [hwanted, List.append_assoc]
      · next hne =>
        -- The chunk has more than was missing, so nothing is missing now.
        simp only [List.isEmpty_iff, List.drop_eq_nil_iff] at hne
        rw [takeLoop_of_le]
        rw [List.length_append, List.length_take]
        omega
    · rw [takeLoop_of_le (by omega), Nat.sub_eq_zero_of_le (by omega), takeChunks_zero, List.append_nil]

/-- What `take` does with a buffer of this size: it copies the first bytes, as
many as there are up to `wanted`, and leaves the others and their count. -/
structure TakesExactly (s : State) (wanted : Nat) : Prop where
  loop : takeLoop wanted [] s.buffered = ((s.take wanted).2, (s.take wanted).1.buffered)
  bytes : (s.take wanted).2 = s.buffered.flatten.take (min wanted s.available)
  left : (s.take wanted).1.buffered.flatten = s.buffered.flatten.drop (min wanted s.available)
  count : (s.take wanted).1.available + (s.take wanted).2.length = s.available

theorem takesExactly {s : State} (h : s.Counted) (wanted : Nat) : s.TakesExactly wanted := by
  obtain ⟨hbytes, hlength⟩ := takeChunks_spec s.buffered wanted
  have hsize : (s.take wanted).2.length = min wanted s.available := by rw [h]; exact hlength
  have hsplit : (s.take wanted).2 ++ (s.take wanted).1.buffered.flatten = s.buffered.flatten := hbytes
  refine ⟨?_, ?_, ?_, ?_⟩
  · rw [takeLoop_eq]
    rfl
  · rw [← hsize, ← hsplit, List.take_left]
  · rw [← hsize, ← hsplit, List.drop_left]
  · show s.available - (s.take wanted).2.length + (s.take wanted).2.length = s.available
    omega

theorem length_take_of_le {s : State} (h : s.Counted) {wanted : Nat} (hle : wanted ≤ s.available) :
    (s.take wanted).2.length = wanted := by
  have hlength := (takeChunks_spec s.buffered wanted).2
  rw [Counted] at h
  show (takeChunks s.buffered wanted).1.length = wanted
  omega

/-! What draining does to the end. -/

theorem drain_isSome {s : State} {reports : List Incoming}
    (h : s.ended.isSome = true ∨ ∃ reason, .ended reason ∈ reports) : (s.drain reports).1.ended.isSome = true := by
  induction reports generalizing s with
  | nil => exact h.resolve_right (by simp)
  | cons report reports ih =>
    cases report with
    | data chunk => exact ih (s := s.push chunk) (by simpa [push] using h)
    | ended reason => rfl

/-- A drain that leaves something has come to an end. -/
theorem drain_rest {s : State} {reports : List Incoming} (h : (s.drain reports).1.ended = none) :
    (s.drain reports).2 = [] := by
  induction reports generalizing s with
  | nil => rfl
  | cons report reports ih =>
    cases report with
    | data chunk => exact ih h
    | ended reason => simp [drain] at h

end State

/-! ## Reads are exact -/

namespace Carry
open Line (size)

variable {s s' : Carry}

/-- All that was reported is handed out, buffered or waiting to be received,
in this order; a closed stream has thrown away what it had not handed out. -/
structure Accounted (s : Carry) : Prop where
  counted : s.state.Counted
  whole : s.held = true → s.arrived = s.returned ++ s.state.buffered.flatten ++ reported s.reports
  handed : s.returned <+: s.arrived
  closed : s.held = false → s.state.buffered = [] ∧ s.state.available = 0

theorem Accounted.same (h : s.Accounted) (hh : s'.held = s.held) (hst : s'.state.buffered = s.state.buffered)
    (hav : s'.state.available = s.state.available) (hq : reported s'.reports = reported s.reports)
    (har : s'.arrived = s.arrived) (hret : s'.returned = s.returned) : s'.Accounted := by
  refine ⟨?_, fun hheld => ?_, ?_, fun hclosed => ?_⟩
  · rw [State.Counted, hst, hav]
    exact h.counted
  · rw [har, hret, hst, hq]
    exact h.whole (hh ▸ hheld)
  · rw [har, hret]
    exact h.handed
  · rw [hst, hav]
    exact h.closed (hh ▸ hclosed)

/-- One more report that carries no bytes. -/
theorem report_accounted (h : s.Accounted) (reason : Option String) : (s.report (.ended reason)).Accounted := by
  rw [report_eq]
  refine h.same rfl rfl rfl ?_ rfl rfl
  dsimp only
  split
  · simp
  · rfl

theorem drained_accounted (h : s.Accounted) : s.drained.Accounted := by
  unfold drained
  split
  · next hh =>
    refine ⟨State.drain_counted h.counted _, fun _ => ?_, h.handed, fun hclosed => absurd (hh.symm.trans hclosed) (by simp)⟩
    rw [List.append_assoc, State.drain_bytes, ← List.append_assoc]
    exact h.whole hh
  · exact h

theorem hand_accounted (h : s.Accounted) (wanted : Nat) : (s.hand wanted).Accounted := by
  have hsplit := State.take_bytes s.state wanted
  have hwhole : s.held = true → s.arrived =
      s.returned ++ (s.state.take wanted).2 ++ (s.state.take wanted).1.buffered.flatten ++ reported s.reports := by
    intro hh
    rw [h.whole hh, ← hsplit, ← List.append_assoc]
  cases hh : s.held with
  | true =>
    refine ⟨State.take_counted h.counted wanted, fun _ => hwhole hh, ?_, by simp [hand, hh]⟩
    rw [hand, hwhole hh, List.append_assoc _ _ (reported _)]
    exact List.prefix_append _ _
  | false =>
    obtain ⟨hbuffered, hav⟩ := h.closed hh
    have hnil : (s.state.take wanted).2 = [] ∧ (s.state.take wanted).1.buffered = [] := by
      rw [State.take, hbuffered]
      cases wanted <;> exact ⟨rfl, rfl⟩
    refine ⟨State.take_counted h.counted wanted, by simp [hand, hh], ?_, fun _ => ⟨hnil.2, ?_⟩⟩
    · rw [hand, hnil.1, List.append_nil]
      exact h.handed
    · show s.state.available - _ = 0
      omega

theorem stepped_accounted {a : Act} (h : s.Accounted) (hs : Stepped s a s') : s'.Accounted := by
  cases hs with
  | write | finish =>
    rw [enqueue_eq]
    exact h.same rfl rfl rfl rfl rfl rfl
  | close => exact ⟨rfl, by simp, h.handed, fun _ => ⟨rfl, rfl⟩⟩
  | openFails =>
    exact report_accounted (s := { s with writer := .gone, reader := .ended }) (h.same rfl rfl rfl rfl rfl rfl) _
  | read _ hh =>
    refine ⟨h.counted, fun _ => ?_, h.handed.trans (List.prefix_append _ _), fun hclosed => ?_⟩
    · rw [h.whole hh]
      simp
    · simp [hh] at hclosed
  | readEnds => exact report_accounted (s := { s with reader := .ended }) (h.same rfl rfl rfl rfl rfl rfl) _
  | getNothing | getData => exact (drained_accounted h).same rfl rfl rfl rfl rfl rfl
  | @fillData _ chunk reports _ hg hq =>
    refine ⟨State.push_counted h.counted chunk, fun hh => ?_, h.handed, fun hclosed => ?_⟩
    · rw [h.whole hh, hq]
      simp [State.push]
    · simp [hg.2.2] at hclosed
  | fillEnded _ _ hq => exact h.same rfl rfl rfl (by rw [hq]; rfl) rfl rfl
  | gotData => exact hand_accounted (s := { s with wanted := none }) (h.same rfl rfl rfl rfl rfl rfl) _
  | getPartialData => exact hand_accounted (drained_accounted h) _
  | look => exact drained_accounted h
  | abortLate => exact h
  | _ => exact h.same rfl rfl rfl rfl rfl rfl

theorem accounted_run {ours running : Bool} {as : List Act}
    (h : Machine.run step (start ours running) as = some s) : s.Accounted := by
  refine Machine.run_invariant (fun _ _ _ hI hs => stepped_accounted hI (step_cases hs)) h ?_
  cases ours <;> cases running <;> exact ⟨rfl, fun _ => rfl, List.prefix_refl _, by simp [start]⟩

/-- Nothing is consumed but by the end of a read that is granted. -/
theorem returned_eq {a : Act} (h : step s a = some s') (hdata : a ≠ .gotData) (hpart : ∀ n, a ≠ .getPartialData n) :
    s'.returned = s.returned := by
  cases step_cases h with
  | write | finish => rw [enqueue_eq]
  | openFails | readEnds => rw [report_eq]
  | getNothing | getData | look => rw [drained_eq]
  | gotData | gotNothing => exact absurd rfl hdata
  | getPartialData => exact absurd rfl (hpart _)
  | _ => rfl

/-- While `get_data` waits, nothing else is read, and it waits for the same. -/
theorem waiting_kept {a : Act} {wanted : Nat} (h : step s a = some s') (hw : s.wanted = some wanted) (ha : a ≠ .gotData) :
    s'.wanted = some wanted ∧ s'.returned = s.returned := by
  cases step_cases h with
  | openFails | readEnds =>
    rw [report_eq]
    exact ⟨hw, rfl⟩
  | gotData | gotNothing => exact absurd rfl ha
  | write hn | finish hn | abort hn | abortLate hn | close hn | getNothing hn | getData hn | getPartialData hn | look hn =>
    simp [hn] at hw
  | _ => exact ⟨hw, rfl⟩

/-- `get_data` returns: with the next bytes, as many as it was asked for, or
with none. -/
theorem gotData_exact {wanted : Nat} (h : s.Accounted) (hw : s.wanted = some wanted) (hs : step s .gotData = some s') :
    (∃ bytes, s'.answer = some (.ok bytes) ∧ bytes.length = wanted ∧ s'.returned = s.returned ++ bytes) ∨
      s'.answer = some .errUnavailable ∧ s'.returned = s.returned := by
  cases step_cases hs with
  | gotData hw' hle =>
    obtain rfl := Option.some.inj (hw.symm.trans hw')
    exact .inl ⟨_, rfl, State.length_take_of_le h.counted hle, rfl⟩
  | gotNothing => exact .inr ⟨rfl, rfl⟩

/-- A whole call of `get_data`. -/
theorem getData_exact {n : Int32} {as : List Act} {t : Carry} (h : s.Accounted) (hn : 0 < size n) (has : .gotData ∉ as)
    (hr : Machine.run step s (.getData n :: (as ++ [.gotData])) = some t) :
    (∃ bytes, t.answer = some (.ok bytes) ∧ bytes.length = size n ∧ t.returned = s.returned ++ bytes) ∨
      t.answer = some .errUnavailable ∧ t.returned = s.returned := by
  obtain ⟨u, hu, hr⟩ := Machine.run_cons.1 hr
  obtain ⟨v, hv, hgot⟩ := Machine.run_concat.1 hr
  have hcall : u.wanted = some (size n) ∧ u.returned = s.returned := by
    cases step_cases hu with
    | getNothing _ h0 => omega
    | getData =>
      rw [drained_eq]
      exact ⟨rfl, rfl⟩
  have hwait : v.wanted = some (size n) ∧ v.returned = s.returned := by
    refine Machine.run_invariant_along (I := fun v : Carry => v.wanted = some (size n) ∧ v.returned = s.returned)
      (G := fun _ a => a ≠ .gotData) (fun v a v' hI hne hs => ?_) hv
      (Machine.along_of_forall (fun a ha _ => ne_of_mem_of_not_mem ha has) u) hcall
    obtain ⟨hw, hreturned⟩ := waiting_kept hs hI.1 hne
    exact ⟨hw, hreturned.trans hI.2⟩
  have hacc : v.Accounted := Machine.run_invariant (fun _ _ _ hI hs => stepped_accounted hI (step_cases hs)) hv
    (stepped_accounted h (step_cases hu))
  rw [← hwait.2]
  exact gotData_exact hacc hwait.1 hgot

/-- `get_partial_data` returns the next bytes, as many as it was asked for and
there are. -/
theorem getPartialData_exact {n : Int32} (h : s.Accounted) (hs : step s (.getPartialData n) = some s') :
    ∃ bytes, s'.answer = some (.ok bytes) ∧ bytes.length = min (size n) s.drained.state.available ∧
      s'.returned = s.returned ++ bytes ∧ s.drained.state.buffered.flatten = bytes ++ s'.state.buffered.flatten := by
  cases step_cases hs with
  | getPartialData hw =>
    refine ⟨_, rfl, State.length_take_of_le (drained_accounted h).counted (by omega), ?_,
      (State.take_bytes s.drained.state _).symm⟩
    rw [hand, drained_eq]

/-- **Reads are exact.** The buffer's count is that of its bytes, and taking
from it is exact. What was reported is handed out in order, all of it: by
`get_data` as many bytes as it was asked for, or none, with nothing consumed;
by `get_partial_data` as many as there are; and by nothing else. -/
theorem reads_exact {ours running : Bool} {as : List Act} (h : Machine.run step (start ours running) as = some s) :
    s.state.available = (s.state.buffered.map List.length).sum ∧
    (∀ wanted, s.state.TakesExactly wanted) ∧
    (s.held = true → s.arrived = s.returned ++ s.state.buffered.flatten ++ reported s.reports) ∧
    s.returned <+: s.arrived ∧
    (∀ n bs t, 0 < size n → .gotData ∉ bs → Machine.run step s (.getData n :: (bs ++ [.gotData])) = some t →
      (∃ bytes, t.answer = some (.ok bytes) ∧ bytes.length = size n ∧ t.returned = s.returned ++ bytes) ∨
        t.answer = some .errUnavailable ∧ t.returned = s.returned) ∧
    (∀ n s', step s (.getPartialData n) = some s' → ∃ bytes, s'.answer = some (.ok bytes) ∧
      bytes.length = min (size n) s.drained.state.available ∧ s'.returned = s.returned ++ bytes ∧
      s.drained.state.buffered.flatten = bytes ++ s'.state.buffered.flatten) ∧
    (∀ a s', step s a = some s' → a ≠ .gotData → (∀ n, a ≠ .getPartialData n) → s'.returned = s.returned) := by
  have hacc := accounted_run h
  refine ⟨?_, State.takesExactly hacc.counted, hacc.whole, hacc.handed,
    fun n bs t hn hbs hr => getData_exact hacc hn hbs hr, fun n s' hs => getPartialData_exact hacc hs,
    fun a s' hs hdata hpart => returned_eq hs hdata hpart⟩
  rw [hacc.counted, List.length_flatten]

/-- Three chunks, one of them empty, read across their ends; then a read of
more than there is. -/
theorem reads_exact_across : ∃ s, Machine.run step (start false true)
      [.read [1, 2, 3], .read [], .getPartialData 2, .getData 3, .read [4, 5], .fill, .gotData, .readEnds none,
        .getData 9] = some s ∧
    s.returned = [1, 2, 3, 4, 5] ∧ s.state.available = (s.state.buffered.map List.length).sum := by
  have hrun : (Machine.run step (start false true)
      [.read [1, 2, 3], .read [], .getPartialData 2, .getData 3, .read [4, 5], .fill, .gotData, .readEnds none,
        .getData 9]).map (·.returned) = some [1, 2, 3, 4, 5] := by decide +kernel
  obtain ⟨s, hs, he⟩ := Option.map_eq_some_iff.1 hrun
  exact ⟨s, hs, he, (reads_exact hs).1⟩

/-! ## The two views of the end -/

/-- A call of `get_data` comes back with `ERR_UNAVAILABLE` without waiting:
nothing happens between its own steps. -/
def Refused (s : Carry) (n : Int32) : Prop :=
  ∃ fills t, Machine.run step s (.getData n :: (List.replicate fills .fill ++ [.gotData])) = some t ∧
    t.answer = some .errUnavailable

/-- The polled and the blocking view of the end agree: the stream is not open
once the reader is gone and its last report drained, nor whenever a read of
more than there is would be refused at once. -/
def Agree (s : Carry) : Prop :=
  (s.reader.feeding = false → s.drained.reports = [] → s.isOpen = false) ∧
    ∀ n, s.drained.state.available < size n → s.Refused n → s.isOpen = false

/-- The reader left without a report. -/
def Silent (s : Carry) : Prop := s.reader = .stopped ∨ s.reader = .gone

/-- What tells the main thread of the end: a report, or a `get_data` that
finds the reader gone. -/
structure Told (s : Carry) : Prop where
  opening : s.writer = .opening → s.reader = .starting
  /-- Before the reader has come to an end, or when it left without a word,
  nothing has been reported. -/
  quiet : s.reader ≠ .ended → (∀ reason, .ended reason ∉ s.reports) ∧
    (s.state.ended.isSome = true → s.noticed = true)
  ended : s.reader = .ended → s.held = true → s.state.ended.isSome = true ∨ ∃ reason, .ended reason ∈ s.reports
  noticed : s.noticed = true → s.state.ended.isSome = true

/-- A step that moves no report. -/
theorem Told.same (h : s.Told) (hw : s'.writer = .opening → s.writer = .opening) (hr : s'.reader = s.reader)
    (hh : s'.held = true → s.held = true) (hq : s'.reports = s.reports) (he : s'.state.ended = s.state.ended)
    (hn : s'.noticed = s.noticed) : s'.Told := by
  refine ⟨fun ho => hr.trans (h.opening (hw ho)), fun hne => ?_, fun hend hheld => ?_, fun hnoticed => ?_⟩
  · rw [hq, he, hn]
    exact h.quiet (hr ▸ hne)
  · rw [hq, he]
    exact h.ended (hr ▸ hend) (hh hheld)
  · rw [he]
    exact h.noticed (hn ▸ hnoticed)

theorem drained_told (h : s.Told) : s.drained.Told := by
  unfold drained
  split
  · refine ⟨h.opening, fun hne => ?_, fun hend hheld => .inl (State.drain_isSome (h.ended hend hheld)),
      fun hnoticed => State.drain_isSome (.inl (h.noticed hnoticed))⟩
    obtain ⟨hno, hended⟩ := h.quiet hne
    obtain ⟨hsame, hrest⟩ := State.drain_of_no_end (s := s.state) hno
    exact ⟨by simp [hrest], by rw [hsame]; exact hended⟩
  · exact h

/-- The reader leaves without a word. -/
theorem Told.leaves (h : s.Told) {writer : Writer} {reader : Reader} {stopped : Option UInt32}
    (hw : writer ≠ .opening) (hne : s.reader ≠ .ended) (hr : reader ≠ .ended) :
    Told { s with writer := writer, reader := reader, stopped := stopped } :=
  ⟨fun ho => absurd ho hw, fun _ => h.quiet hne, fun hend => absurd hend hr, h.noticed⟩

/-- The reader leaves with a report. -/
theorem Told.reports (h : s.Told) {writer : Writer} (hw : writer ≠ .opening) (reason : Option String) :
    Told ({ s with writer := writer, reader := .ended }.report (.ended reason)) := by
  rw [report_eq]
  refine ⟨fun ho => absurd ho hw, fun hne => absurd rfl hne, fun _ hheld => ?_, h.noticed⟩
  exact .inr ⟨reason, by simp [show s.held = true from hheld]⟩

theorem stepped_told {a : Act} (h : s.Told) (hs : Stepped s a s') : s'.Told := by
  cases hs with
  | write | finish =>
    rw [enqueue_eq]
    exact h.same id rfl id rfl rfl rfl
  | close =>
    refine ⟨h.opening, fun hne => ⟨by simp, (h.quiet hne).2⟩, fun _ hheld => ?_, h.noticed⟩
    simp at hheld
  | opened ho =>
    exact h.leaves (by simp) (by simp [h.opening ho]) (by simp)
  | openFails => exact h.reports (by simp) _
  | readEnds hr =>
    exact h.reports (fun ho => by simp [h.opening ho] at hr) _
  | progress hw =>
    refine h.same (fun ho => ?_) rfl id rfl rfl rfl
    dsimp only at ho
    split at ho <;> simp at ho
  | takeAbort hr | dropReader hr =>
    exact h.leaves (fun ho => by simp [h.opening ho] at hr) (by simp [hr]) (by simp)
  | read hr =>
    refine ⟨h.opening, fun hne => ⟨fun reason hm => ?_, (h.quiet hne).2⟩, fun hend => by simp [hr] at hend, h.noticed⟩
    rcases List.mem_append.1 hm with hm | hm
    · exact (h.quiet hne).1 reason hm
    · simp at hm
  | readUnheard hr hh =>
    exact ⟨fun ho => by simp [h.opening ho] at hr, fun hne => absurd rfl hne, fun _ hheld => by simp [hh] at hheld,
      h.noticed⟩
  | dropWriter =>
    by_cases ho : s.writer = .opening
    · rw [if_pos ho]
      exact h.leaves (by simp) (by simp [h.opening ho]) (by simp)
    · rw [if_neg ho]
      exact h.same (by simp) rfl id rfl rfl rfl
  | getNothing | getData => exact (drained_told h).same id rfl id rfl rfl rfl
  | getPartialData => exact (drained_told h).same id rfl id rfl rfl rfl
  | look => exact drained_told h
  | fillData _ _ hq =>
    refine ⟨h.opening, fun hne => ⟨fun reason hm => (h.quiet hne).1 reason (by simp [hq, hm]), (h.quiet hne).2⟩,
      fun hend hheld => ?_, h.noticed⟩
    simpa [hq, State.push] using h.ended hend hheld
  | @fillEnded _ reason _ _ _ hq =>
    refine ⟨h.opening, fun hne => absurd (by simp [hq]) ((h.quiet hne).1 reason), fun _ _ => .inl rfl, fun _ => rfl⟩
  | fillNone _ _ hq => exact ⟨h.opening, fun hne => ⟨(h.quiet hne).1, fun _ => rfl⟩, fun _ _ => .inl rfl, fun _ => rfl⟩
  | abortLate => exact h
  | receiveData | receiveFinish | receiveAbort | receiveNone | writeFails => exact h.same (by simp) rfl id rfl rfl rfl
  | abort | gotData | gotNothing => exact h.same id rfl id rfl rfl rfl

theorem told_run {ours running : Bool} {as : List Act} (h : Machine.run step (start ours running) as = some s) :
    s.Told := by
  refine Machine.run_invariant (fun _ _ _ hI hs => stepped_told hI (step_cases hs)) h ?_
  cases ours <;> cases running <;> exact ⟨by simp [start], by simp [start], by simp [start], by simp [start]⟩

theorem isOpen_eq_true : s.isOpen = true ↔ s.held = true ∧ s.drained.state.ended = none := by
  rw [isOpen, Bool.and_eq_true, Option.isNone_iff_eq_none, and_comm]

/-- An open stream has its reports drained. -/
theorem drained_reports (h : s.isOpen = true) : s.drained.reports = [] := by
  obtain ⟨hheld, hended⟩ := isOpen_eq_true.1 h
  rw [drained, if_pos hheld] at hended ⊢
  exact State.drain_rest hended

/-- On an open stream whose reader is still there, a read of more than there
is waits. -/
theorem not_refused (ho : s.isOpen = true) (hr : s.reader.feeding = true) {n : Int32}
    (hn : s.drained.state.available < size n) : ¬ s.Refused n := by
  rintro ⟨fills, t, ht, hanswer⟩
  have hreports := drained_reports ho
  obtain ⟨hheld, hended⟩ := isOpen_eq_true.1 ho
  obtain ⟨u, hu, ht⟩ := Machine.run_cons.1 ht
  have hwait : u = { s.drained with wanted := some (size n) } := by
    cases step_cases hu with
    | getNothing _ h0 => omega
    | getData => rfl
  subst hwait
  have hheld' : s.drained.held = true := by rw [drained_eq]; exact hheld
  have hreader : s.drained.reader.feeding = true := by rw [drained_eq]; exact hr
  cases fills with
  | zero =>
    have hnot : ¬ size n ≤ s.drained.state.available := by omega
    simp [Machine.run, step, hnot, hended, hheld'] at ht
  | succ fills =>
    obtain ⟨v, hv, -⟩ := Machine.run_cons.1 ht
    simp [step, hn, hended, hheld', hreports, hreader] at hv

/-- **The two views of the end.** They agree in a state exactly if the reader
has not left without a report, or the stream is closed, or a `get_data` has
come upon it since. -/
theorem views_agree_iff {ours running : Bool} {as : List Act} (h : Machine.run step (start ours running) as = some s) :
    s.Agree ↔ (s.Silent → s.held = false ∨ s.noticed = true) := by
  have htold := told_run h
  have hclosed : (s.held = false ∨ s.noticed = true) → s.isOpen = false := by
    rintro hor
    rw [← Bool.not_eq_true, isOpen_eq_true]
    rintro ⟨hheld, hended⟩
    rcases hor with hh | hn
    · simp [hh] at hheld
    · have := (drained_told htold).noticed (by rw [drained_eq]; exact hn)
      simp [hended] at this
  constructor
  · intro hagree hsilent
    by_contra hno
    simp only [not_or, Bool.not_eq_true, Bool.not_eq_false] at hno
    obtain ⟨hheld, hnoticed⟩ := hno
    have hfeeding : s.reader.feeding = false := by rcases hsilent with hr | hr <;> rw [hr] <;> rfl
    have hne : s.drained.reader ≠ .ended := by rw [drained_eq]; rcases hsilent with hr | hr <;> simp [hr]
    have hended : s.drained.state.ended = none := by
      by_contra hsome
      have := ((drained_told htold).quiet hne).2 (Option.isSome_iff_ne_none.2 hsome)
      rw [drained_eq] at this
      simp [hnoticed] at this
    have hopen := isOpen_eq_true.2 ⟨hheld, hended⟩
    have := hagree.1 hfeeding (drained_reports hopen)
    simp [hopen] at this
  · intro hcond
    have hpolled : s.reader.feeding = false → s.isOpen = false := by
      intro hr
      cases hreader : s.reader with
      | starting | looping => simp [hreader, Reader.feeding] at hr
      | stopped => exact hclosed (hcond (.inl hreader))
      | gone => exact hclosed (hcond (.inr hreader))
      | ended =>
        rw [← Bool.not_eq_true, isOpen_eq_true]
        rintro ⟨hheld, hended⟩
        rw [drained, if_pos hheld] at hended
        have := State.drain_isSome (htold.ended hreader hheld)
        exact absurd hended (Option.isSome_iff_ne_none.1 this)
    refine ⟨fun hr _ => hpolled hr, fun n hn hrefused => ?_⟩
    by_contra hopen
    rw [Bool.not_eq_false] at hopen
    refine not_refused hopen ?_ hn hrefused
    by_contra hr
    simp [hpolled (by simpa using hr)] at hopen

/-- The remote finishes, and both views say so. -/
theorem views_agree_iff_finished : ∃ s, Machine.run step (start false true) [.read [1], .readEnds none, .look] = some s ∧
    s.isOpen = false ∧ s.Agree := by
  have hrun : (Machine.run step (start false true) [.read [1], .readEnds none, .look]).map
      (fun s => (s.isOpen, s.reader)) = some (false, .ended) := by decide +kernel
  obtain ⟨s, hs, he⟩ := Option.map_eq_some_iff.1 hrun
  simp only [Prod.mk.injEq] at he
  exact ⟨s, hs, he.1, (views_agree_iff hs).2 fun hsilent => by simp [Silent, he.2] at hsilent⟩

/-- The stream is aborted, and both tasks have returned. It stays open, and a
read of one byte is refused at once. -/
theorem open_after_abort : ∃ s, Machine.run step (start true true) [.opened, .abort 0, .receive, .takeAbort] = some s ∧
    s.reader.feeding = false ∧ s.drained.reports = [] ∧ s.isOpen = true ∧ s.drained.state.available < size 1 ∧
    s.Refused 1 ∧ ¬ s.Agree := by
  have hrun : (Machine.run step (start true true) [.opened, .abort 0, .receive, .takeAbort]).map
      (fun s => (s.reader.feeding, s.drained.reports, s.isOpen, s.drained.state.available)) =
        some (false, [], true, 0) := by decide +kernel
  have hread : ((Machine.run step (start true true) [.opened, .abort 0, .receive, .takeAbort]).bind
      fun s => (Machine.run step s [.getData 1, .fill, .gotData]).map (·.answer)) =
        some (some .errUnavailable) := by decide +kernel
  obtain ⟨s, hs, he⟩ := Option.map_eq_some_iff.1 hrun
  simp only [Prod.mk.injEq] at he
  obtain ⟨hfeeding, hreports, hopen, havailable⟩ := he
  rw [hs, Option.bind_some] at hread
  obtain ⟨t, ht, hanswer⟩ := Option.map_eq_some_iff.1 hread
  refine ⟨s, hs, hfeeding, hreports, hopen, by rw [havailable]; decide, ⟨1, t, ht, hanswer⟩, fun hagree => ?_⟩
  have := hagree.1 hfeeding hreports
  simp [hopen] at this

end Carry
end Gdiroh.Raw
