/-
A clean end is never a truncation.

`clean_end_whole`: script that finds its stream at an end, with no error and
nothing left to read, has been given the whole message of the other end: all
that was put there before the finish or the close, which was not preceded by
an abort. The one exception is a runtime that drops the other end's writer,
which looks like a finish.

`Flows` is what holds of one direction, from the writer's queue at one end to
script at the other; `Joined` is both directions at once, in any run.
-/
import Gdiroh.Raw.Halves

namespace Gdiroh.Raw.Duplex
open Carry (message)

variable {d d' : Duplex}

/-! ## Both directions -/

/-- The direction from an end, whose half is `s` if it is there, to the other,
whose half is `o`. -/
structure Flows (s o : Option Carry) (queued : List Carry.Chunk) (written pipe : Bytes) : Prop where
  sends : ∀ x, s = some x → x.Sends queued written
  absent : s = none → queued = [] ∧ written = []
  reads : ∀ x, o = some x → x.Reads pipe written
  unread : o = none → pipe = written
  clean : ∀ x, o = some x → x.SawEnd → x.reader.feeding = false ∧ x.arrived = written ∧ s.any (·.finishes) = true

/-- Each end is sound, and so is each direction. -/
structure Joined (d : Duplex) : Prop where
  ends : ∀ e s, d.ends e = some s → s.Accounted ∧ s.Told ∧ s.Sealed
  flows : ∀ e, Flows (d.ends e) (d.ends e.other) (d.queued e) (d.written e) (d.pipe e)

/-- The end that the bytes come from takes a step. -/
theorem Flows.from {s s' : Carry} {o : Option Carry} {queued : List Carry.Chunk} {written pipe : Bytes} {a : Carry.Act}
    (h : Flows (some s) o queued written pipe) (hs : s.Stepped a s') :
    Flows (some s') o (queued ++ s.puts a) (written ++ s.writes a) (pipe ++ s.writes a) := by
  refine ⟨fun x hx => ?_, by simp, fun x hx => (h.reads x hx).grow _, fun hn => by rw [h.unread hn], fun x hx he => ?_⟩
  · obtain rfl := Option.some.inj hx
    exact Carry.stepped_sends (h.sends s rfl) hs
  · obtain ⟨hf, harrived, hfin⟩ := h.clean x hx he
    obtain ⟨hfin', hnone⟩ := Carry.stepped_finishes (h.sends s rfl) hfin hs
    exact ⟨hf, by rw [hnone, List.append_nil, harrived], hfin'⟩

/-- The end that they go to takes one. -/
theorem Flows.to {o o' : Carry} {s : Option Carry} {queued : List Carry.Chunk} {written pipe : Bytes} {a : Carry.Act}
    (h : Flows s (some o) queued written pipe) (ht : o.Told) (hs : o.Stepped a o')
    (hread : ∀ chunk, a = .read chunk → chunk <+: pipe)
    (hend : a = .readEnds none → pipe = [] ∧ s.any (·.finishes) = true) :
    Flows s (some o') queued written (pipe.drop a.taken) := by
  have hreads := h.reads o rfl
  refine ⟨h.sends, h.absent, fun x hx => ?_, by simp, fun x hx he => ?_⟩
  · obtain rfl := Option.some.inj hx
    exact Carry.stepped_reads hreads ht hs hread
  · obtain rfl := Option.some.inj hx
    rcases Carry.stepped_sawEnd hs he with hsaw | rfl
    · obtain ⟨hf, harrived, hfin⟩ := h.clean o rfl hsaw
      obtain ⟨hf', harrived'⟩ := Carry.stepped_unfed ht hf hs
      exact ⟨hf', harrived'.trans harrived, hfin⟩
    · obtain ⟨rfl, hfin⟩ := hend rfl
      cases hs with
      | readEnds hr =>
        have hwhole := hreads.whole (by rw [hr]; rfl)
        rw [Carry.report_eq]
        exact ⟨rfl, by rw [hwhole, List.append_nil], hfin⟩

theorem allows_read {e : End} {chunk : Bytes} (h : d.allows e (.read chunk) = true) : chunk <+: d.pipe e.other := by
  simp only [allows, Bool.and_eq_true, List.isPrefixOf_iff_prefix] at h
  exact h.2

theorem allows_end {e : End} (h : d.allows e (.readEnds none) = true) :
    d.pipe e.other = [] ∧ (d.ends e.other).any (·.finishes) = true := by
  simpa only [allows, Bool.and_eq_true, List.isEmpty_iff] using h

theorem allows_worded {e : End} {a : Carry.Act} (h : d.allows e a = true) (text : String)
    (ha : a = .readEnds (some text) ∨ a = .openFails text) : text ≠ "" := by
  rcases ha with rfl | rfl <;> simpa [allows] using h

theorem stepped_joined {a : Act} (h : d.Joined) (hs : Stepped d a d') : d'.Joined := by
  cases hs with
  | @act e a s s' he ha hs =>
    have hstepped := Carry.step_cases hs
    obtain ⟨haccounted, htold, hsealed⟩ := h.ends e s he
    refine ⟨fun x t hx => ?_, fun x => ?_⟩
    · rcases End.eq_or x e with rfl | rfl
      · rw [acted_ends, Option.some.injEq] at hx
        subst hx
        exact ⟨Carry.stepped_accounted haccounted hstepped, Carry.stepped_told htold hstepped,
          Carry.stepped_sealed hsealed htold hstepped (allows_worded ha)⟩
      · rw [acted_ends_ne (End.other_ne e)] at hx
        exact h.ends _ _ hx
    · rcases End.eq_or x e with rfl | rfl
      · rw [acted_ends, acted_ends_ne (End.other_ne x), acted_queued, acted_written, acted_pipe]
        exact (he ▸ h.flows x).from hstepped
      · have hflows := h.flows e.other
        rw [End.other_other] at hflows
        rw [End.other_other, acted_ends, acted_ends_ne (End.other_ne e), acted_queued_ne (End.other_ne e),
          acted_written_ne (End.other_ne e), acted_pipe_ne (End.other_ne e)]
        refine (he ▸ hflows).to htold hstepped (fun chunk ha' => ?_) fun ha' => ?_
        · subst ha'
          exact allows_read ha
        · subst ha'
          exact allows_end ha
  | @adopt running hn hshown =>
    have hrun : Machine.run Carry.step (.start false running) [] = some (.start false running) := rfl
    have hours : Function.update d.ends .theirs (some (.start false running)) .ours = d.ends .ours :=
      Function.update_of_ne (by simp) ..
    refine ⟨fun x t hx => ?_, fun x => ?_⟩
    · cases x with
      | ours => exact h.ends .ours t (hours ▸ hx)
      | theirs =>
        obtain rfl : Carry.start false running = t := by simpa using hx
        exact ⟨Carry.accounted_run hrun, Carry.told_run hrun, Carry.start_sealed false running⟩
    · cases x with
      | ours =>
        have hflows := h.flows .ours
        refine ⟨fun x hx => hflows.sends x (hours ▸ hx), fun hx => hflows.absent (hours ▸ hx), fun x hx => ?_,
          by simp [End.other], fun x hx he => ?_⟩
        · obtain rfl : Carry.start false running = x := by simpa [End.other] using hx
          rw [← hflows.unread hn]
          exact Carry.start_reads false running
        · obtain rfl : Carry.start false running = x := by simpa [End.other] using hx
          exact absurd he (Carry.start_not_sawEnd false running)
      | theirs =>
        have hflows := h.flows .theirs
        obtain ⟨hqueued, hwritten⟩ := hflows.absent hn
        refine ⟨fun x hx => ?_, by simp, fun x hx => hflows.reads x (hours ▸ hx), fun hx => hflows.unread (hours ▸ hx),
          fun x hx he => ?_⟩
        · obtain rfl : Carry.start false running = x := by simpa using hx
          show Carry.Sends _ (d.queued .theirs) (d.written .theirs)
          rw [hqueued, hwritten]
          exact Carry.start_sends false running
        · have := (hflows.clean x (hours ▸ hx) he).2.2
          simp [hn] at this

theorem joined_run {running : Bool} {as : List Act} (h : Machine.run step (start running) as = some d) : d.Joined := by
  refine Machine.run_invariant (fun _ _ _ hI hs => stepped_joined hI (step_cases hs)) h ?_
  have hrun : Machine.run Carry.step (.start true running) [] = some (.start true running) := rfl
  refine ⟨fun x t hx => ?_, fun x => ?_⟩
  · cases x with
    | ours =>
      obtain rfl := Option.some.inj hx
      exact ⟨Carry.accounted_run hrun, Carry.told_run hrun, Carry.start_sealed true running⟩
    | theirs => simp [start] at hx
  · cases x with
    | ours =>
      refine ⟨fun x hx => ?_, by simp [start], by simp [start, End.other], fun _ => rfl, by simp [start, End.other]⟩
      obtain rfl := Option.some.inj hx
      exact Carry.start_sends true running
    | theirs =>
      refine ⟨by simp [start], fun _ => ⟨rfl, rfl⟩, fun x hx => ?_, fun _ => rfl, fun x hx he => ?_⟩
      · obtain rfl := Option.some.inj hx
        exact Carry.start_reads true running
      · obtain rfl := Option.some.inj hx
        exact absurd he (Carry.start_not_sawEnd true running)

/-! ## What a clean end says -/

theorem Flows.message_isPre {s o : Option Carry} {queued : List Carry.Chunk} {written pipe : Bytes} {x : Carry}
    (h : Flows s o queued written pipe) (ho : o = some x) : x.arrived <+: message queued := by
  refine (h.reads x ho).within.trans ?_
  cases hs : s with
  | none =>
    rw [(h.absent hs).2]
    exact List.nil_prefix
  | some y => exact (h.sends y hs).within

/-- A clean end, unless the writer was dropped, comes behind the whole
message. -/
theorem Flows.whole {s o : Option Carry} {queued : List Carry.Chunk} {written pipe : Bytes} {x : Carry}
    (h : Flows s o queued written pipe) (ho : o = some x) (he : x.SawEnd) :
    ∃ y, s = some y ∧ (y.writer = .gone ∨ x.arrived = message queued ∧ y.Farewell queued) := by
  obtain ⟨-, harrived, hfin⟩ := h.clean x ho he
  obtain ⟨y, rfl, hy⟩ := (Option.any_eq_true _ _).1 hfin
  refine ⟨y, rfl, ?_⟩
  simp only [Carry.finishes, Bool.or_eq_true, Bool.and_eq_true, decide_eq_true_eq] at hy
  rcases hy with hhalf | ⟨hw, -⟩
  · obtain ⟨hwhole, hbye⟩ := (h.sends y rfl).finished hhalf
    exact .inr ⟨harrived.trans hwhole, hbye⟩
  · exact .inl hw

/-- **A clean end is no truncation.** In every run of a stream's two ends,
what script was given at one end is a prefix of the message of the other. If
it finds its stream at an end, with no error and nothing left to read, it is
the whole message, and script there said so by a finish or a close, before
any abort; or the runtime there dropped the writer. -/
theorem clean_end_whole {running : Bool} {as : List Act} {e : End} {o : Carry}
    (h : Machine.run step (start running) as = some d) (ho : d.ends e = some o) :
    o.returned <+: message (d.queued e.other) ∧
    (o.held = true → o.isOpen = false → o.getError = "" → o.getAvailableBytes = 0 →
      ∃ s, d.ends e.other = some s ∧
        (s.writer = .gone ∨ o.returned = message (d.queued e.other) ∧ s.Farewell (d.queued e.other))) := by
  have hjoined := joined_run h
  obtain ⟨haccounted, -, hsealed⟩ := hjoined.ends e o ho
  have hflows := hjoined.flows e.other
  rw [End.other_other] at hflows
  refine ⟨haccounted.handed.trans (hflows.message_isPre ho), fun hh hopen herr hav => ?_⟩
  have hall : o.returned = o.arrived := by
    have hnone : o.drained.state.available = 0 := by
      unfold Carry.getAvailableBytes at hav
      omega
    have hcounted := (Carry.drained_accounted haccounted).counted
    rw [State.Counted, hnone] at hcounted
    rw [haccounted.drained_whole hsealed hh, List.eq_nil_of_length_eq_zero hcounted.symm, List.append_nil]
  rw [hall]
  exact hflows.whole ho (hsealed.sawEnd hh hopen herr)

/-- A request and its reply, which ends with a close. -/
def requestReply : List Act :=
  [.act .ours .opened, .act .ours (.write [1, 2, 3]), .act .ours .finish, .act .ours .receive, .act .ours (.progress 3),
    .adopt true, .act .theirs (.read [1, 2]), .act .ours .receive, .act .theirs (.read [3]),
    .act .theirs (.readEnds none), .act .theirs (.getPartialData 3), .act .theirs (.write [4]), .act .theirs .close,
    .act .theirs .receive, .act .theirs (.progress 1), .act .theirs .receive, .act .ours (.read [4]),
    .act .ours (.readEnds none), .act .ours (.getPartialData 9)]

theorem clean_end_whole_requestReply : ∃ d o s, Machine.run step (start true) requestReply = some d ∧
    d.ends .ours = some o ∧ d.ends .theirs = some s ∧ o.returned = [4] ∧ s.returned = [1, 2, 3] ∧
    (s.writer = .gone ∨ o.returned = message (d.queued .theirs) ∧ s.Farewell (d.queued .theirs)) := by
  have hrun : ((Machine.run step (start true) requestReply).bind fun d => (d.ends .ours).bind fun o =>
      (d.ends .theirs).map fun s => ((o.held, o.isOpen, o.getError, o.getAvailableBytes), o.returned, s.returned)) =
        some ((true, false, "", 0), [4], [1, 2, 3]) := by decide +kernel
  simp only [Option.bind_eq_some_iff, Option.map_eq_some_iff, Prod.mk.injEq] at hrun
  obtain ⟨d, hd, o, ho, s, hs, ⟨hh, hopen, herr, hav⟩, hours, htheirs⟩ := hrun
  obtain ⟨s', hs', hend⟩ := (clean_end_whole hd ho).2 hh hopen herr hav
  obtain rfl : s = s' := Option.some.inj (hs.symm.trans hs')
  exact ⟨d, o, s, hd, ho, hs, hours, htheirs, hend⟩

/-- The exception: the runtime drops the writer in the middle of a write, and
the other end reads what there is of it as if that were all. -/
example : ((Machine.run step (start true)
      [.act .ours .opened, .act .ours (.write [1, 2]), .act .ours .receive, .act .ours (.progress 1),
        .act .ours .dropWriter, .adopt true, .act .theirs (.read [1]), .act .theirs (.readEnds none),
        .act .theirs (.getPartialData 2)]).bind fun d => (d.ends .theirs).map fun o =>
      ((o.isOpen, o.getError, o.getAvailableBytes), o.returned, message (d.queued .ours))) =
    some ((false, "", 0), [1], [1, 2]) := by decide +kernel

end Gdiroh.Raw.Duplex
