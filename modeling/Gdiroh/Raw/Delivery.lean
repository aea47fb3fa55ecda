/-
What was said gets through.

`finish_gets_through`: once script at one end has finished or closed its
stream, with no abort before, turns of its writer and of the reader at the
other end are all that is needed for script there to find the clean end, with
the whole message given or there to be read. `Going` is what these turns keep,
and `ahead` what each of them lowers.
-/
import Gdiroh.Raw.CleanEnd

namespace Gdiroh.Raw.Duplex
open Carry (message)

variable {d d' : Duplex}

/-- The turns of the writer at `w` and of the reader at the other end. -/
def Carries (w : End) : Act → Prop
  | .act e .opened | .act e .receive | .act e (.progress _) => e = w
  | .act e (.read _) | .act e (.readEnds none) => e = w.other
  | _ => False

/-- A message of `w` that script there said is whole, on its way to a reader
that is still there, or has come to the end. -/
structure Going (w : End) (queued : List Carry.Chunk) (returned : Bytes) (d : Duplex) : Prop where
  joined : d.Joined
  said : d.queued w = queued
  writer : ∃ s, d.ends w = some s ∧ s.Farewell queued ∧ (s.writer.listening = true ∨ s.half = .finished)
  reader : ∃ o, d.ends w.other = some o ∧ o.held = true ∧ o.returned = returned ∧ (o.reader = .looping ∨ o.SawEnd)

/-- What is ahead of the chunks of a queue. -/
def pending (chunks : List Carry.Chunk) : Nat := (chunks.map fun
  | .data data => 2 + 2 * data.length
  | _ => 0).sum

/-- What is ahead of a writer: each data has to be received and written, and
then read. -/
def effort (s : Carry) : Nat :=
  match s.writer with
  | .opening => 2 + pending s.outgoing
  | .waiting => 1 + pending s.outgoing
  | .writing rest => 2 + 2 * rest.length + pending s.outgoing
  | .returned | .gone => 0

/-- What is ahead of a message, until its end is read. -/
def ahead (w : End) (d : Duplex) : Nat :=
  match d.ends w, d.ends w.other with
  | some s, some o => if o.reader = .looping then 1 + (d.pipe w).length + effort s else 0
  | _, _ => 0

variable {w : End} {queued : List Carry.Chunk} {returned : Bytes}

theorem step_act {e : End} {a : Carry.Act} {s s' : Carry} (he : d.ends e = some s) (ha : d.allows e a = true)
    (hs : s.step a = some s') : d.step (.act e a) = some (d.acted e a s s') := by
  simp [step, he, ha, hs]

theorem ahead_eq {s o : Carry} (hs : d.ends w = some s) (ho : d.ends w.other = some o) (hr : o.reader = .looping) :
    ahead w d = 1 + (d.pipe w).length + effort s := by
  simp [ahead, hs, ho, hr]

/-- The writer has its turn. -/
theorem Going.writes {a : Carry.Act} {s s' o : Carry} (h : Going w queued returned d) (hs : d.ends w = some s)
    (ho : d.ends w.other = some o) (hr : o.reader = .looping) (ha : d.allows w a = true) (hstep : s.step a = some s')
    (hputs : s.puts a = []) (hheld : s'.held = s.held) (hgo : s'.writer.listening = true ∨ s'.half = .finished)
    (hlt : (s.writes a).length + effort s' < effort s) :
    d.step (.act w a) = some (d.acted w a s s') ∧ Going w queued returned (d.acted w a s s') ∧
      ahead w (d.acted w a s s') < ahead w d := by
  have hact := step_act hs ha hstep
  refine ⟨hact, ⟨stepped_joined h.joined (step_cases hact), ?_, ?_, ?_⟩, ?_⟩
  · rw [acted_queued, hputs, List.append_nil]
    exact h.said
  · obtain ⟨t, ht, hbye, -⟩ := h.writer
    obtain rfl : s = t := Option.some.inj (hs.symm.trans ht)
    exact ⟨s', acted_ends, hbye.same fun hh => hheld.trans hh, hgo⟩
  · rw [acted_ends_ne (End.other_ne w)]
    exact h.reader
  · have hother : (d.acted w a s s').ends w.other = some o := (acted_ends_ne (End.other_ne w)).trans ho
    rw [ahead_eq acted_ends hother hr, ahead_eq hs ho hr, acted_pipe, List.length_append]
    omega

/-- The reader has its turn. -/
theorem Going.takes {a : Carry.Act} {s o o' : Carry} (h : Going w queued returned d) (hs : d.ends w = some s)
    (ho : d.ends w.other = some o) (hr : o.reader = .looping) (ha : d.allows w.other a = true)
    (hstep : o.step a = some o') (hheld : o'.held = true) (hret : o'.returned = o.returned)
    (hgo : o'.reader = .looping ∨ o'.SawEnd)
    (hlt : o'.reader = .looping → 0 < a.taken ∧ d.pipe w ≠ []) :
    d.step (.act w.other a) = some (d.acted w.other a o o') ∧ Going w queued returned (d.acted w.other a o o') ∧
      ahead w (d.acted w.other a o o') < ahead w d := by
  have hact := step_act ho ha hstep
  have hends : (d.acted w.other a o o').ends w = some s := (acted_ends_ne (End.ne_other w)).trans hs
  refine ⟨hact, ⟨stepped_joined h.joined (step_cases hact), (acted_queued_ne (End.ne_other w)).trans h.said, ?_, ?_⟩, ?_⟩
  · obtain ⟨t, ht, hbye⟩ := h.writer
    exact ⟨t, hends.trans (hs.symm.trans ht), hbye⟩
  · obtain ⟨t, ht, -, hreturned, -⟩ := h.reader
    obtain rfl : o = t := Option.some.inj (ho.symm.trans ht)
    exact ⟨o', acted_ends, hheld, hret.trans hreturned, hgo⟩
  · rw [ahead_eq hs ho hr]
    by_cases hr' : o'.reader = .looping
    · obtain ⟨htaken, hne⟩ := hlt hr'
      have hpos := List.length_pos_iff.2 hne
      rw [ahead_eq hends acted_ends hr', acted_pipe_ne (End.ne_other w), List.length_drop]
      omega
    · have hzero : ahead w (d.acted w.other a o o') = 0 := by simp [ahead, hends, hr']
      omega

/-- A writer that has not left takes a step: what it is in the middle of, or
what is next in its queue, which is no abort. -/
theorem Going.exists_writes {s o : Carry} (h : Going w queued returned d) (hs : d.ends w = some s)
    (ho : d.ends w.other = some o) (hr : o.reader = .looping) (hbye : s.Farewell queued)
    (hl : s.writer.listening = true) :
    ∃ a d', Carries w a ∧ d.step a = some d' ∧ Going w queued returned d' ∧ ahead w d' < ahead w d := by
  have hsends := (h.joined.flows w).sends s hs
  have hlast : Carry.lastWord queued = Carry.lastWord s.outgoing := by
    rw [← h.said, hsends.queue hl, Carry.lastWord_started]
  cases hw : s.writer with
  | opening =>
    have hstep : s.step .opened = some { s with writer := .waiting, reader := .looping } := by simp [Carry.step, hw]
    refine ⟨.act w .opened, _, rfl, h.writes hs ho hr rfl hstep rfl rfl (.inl rfl) ?_⟩
    simp [Carry.writes, effort, hw]
  | waiting =>
    cases hq : s.outgoing with
    | nil =>
      have hheld : s.held = false := by
        rcases hbye with hlast' | ⟨-, hheld⟩
        · simp [hlast, hq, Carry.lastWord] at hlast'
        · exact hheld
      have hstep : s.step .receive = some { s with writer := .returned, half := .finished } := by
        simp [Carry.step, hw, hq, hheld]
      refine ⟨.act w .receive, _, rfl, h.writes hs ho hr rfl hstep rfl rfl (.inr rfl) ?_⟩
      simp only [Carry.writes, effort, hw, List.length_nil]
      omega
    | cons chunk rest =>
      cases chunk with
      | data data =>
        have hstep : s.step .receive =
            some { s with outgoing := rest, writer := .writing data, started := s.started ++ [data] } := by
          simp [Carry.step, hw, hq]
        refine ⟨.act w .receive, _, rfl, h.writes hs ho hr rfl hstep rfl rfl (.inl rfl) ?_⟩
        simp only [Carry.writes, effort, hw, hq, pending, List.map_cons, List.sum_cons, List.length_nil]
        omega
      | finish =>
        have hstep : s.step .receive = some { s with outgoing := rest, writer := .returned, half := .finished } := by
          simp [Carry.step, hw, hq]
        refine ⟨.act w .receive, _, rfl, h.writes hs ho hr rfl hstep rfl rfl (.inr rfl) ?_⟩
        simp only [Carry.writes, effort, hw, List.length_nil]
        omega
      | abort code =>
        rw [hq, Carry.lastWord] at hlast
        · rcases hbye with hlast' | ⟨hlast', -⟩ <;> simp [hlast] at hlast'
        · simp
  | writing rest =>
    have hstep : s.step (.progress rest.length) = some { s with writer := .waiting } := by simp [Carry.step, hw]
    refine ⟨.act w (.progress rest.length), _, rfl, h.writes hs ho hr rfl hstep rfl rfl (.inl rfl) ?_⟩
    simp only [Carry.writes, Carry.Writer.rest, effort, hw, List.take_length]
    omega
  | returned | gone => simp [hw, Carry.Writer.listening] at hl

/-- A reader takes a step: what is on the wire, or the clean end behind it. -/
theorem Going.exists_takes {s o : Carry} (h : Going w queued returned d) (hs : d.ends w = some s)
    (ho : d.ends w.other = some o) (hr : o.reader = .looping) (hheld : o.held = true)
    (hwire : d.pipe w ≠ [] ∨ s.half = .finished) :
    ∃ a d', Carries w a ∧ d.step a = some d' ∧ Going w queued returned d' ∧ ahead w d' < ahead w d := by
  by_cases hpipe : d.pipe w = []
  · have hfin : s.half = .finished := hwire.resolve_left (fun hne => hne hpipe)
    have hallows : d.allows w.other (.readEnds none) = true := by simp [allows, hpipe, hs, Carry.finishes, hfin]
    have hstep : o.step (.readEnds none) =
        some { o with reader := .ended, reports := o.reports ++ [.ended none] } := by
      simp [Carry.step, hr, Carry.report, hheld]
    refine ⟨.act w.other (.readEnds none), _, rfl, h.takes hs ho hr hallows hstep hheld rfl (.inr (.inl ?_)) (by simp)⟩
    simp
  · have hpos := List.length_pos_iff.2 hpipe
    have hallows : d.allows w.other (.read ((d.pipe w).take readChunk)) = true := by
      have hne : (d.pipe w).take readChunk ≠ [] := by simp [hpipe, readChunk]
      simp only [allows, End.other_other, Bool.and_eq_true, Bool.not_eq_true', List.isEmpty_eq_false_iff,
        decide_eq_true_eq, List.isPrefixOf_iff_prefix]
      exact ⟨⟨hne, List.length_take_le _ _⟩, List.take_prefix _ _⟩
    have hstep : o.step (.read ((d.pipe w).take readChunk)) = some { o with
        arrived := o.arrived ++ (d.pipe w).take readChunk
        reports := o.reports ++ [.data ((d.pipe w).take readChunk)] } := by
      simp [Carry.step, hr, Carry.report, hheld]
    refine ⟨.act w.other (.read ((d.pipe w).take readChunk)), _, rfl,
      h.takes hs ho hr hallows hstep hheld rfl (.inl hr) fun _ => ⟨?_, hpipe⟩⟩
    simp only [Carry.Act.taken, List.length_take, readChunk]
    omega

/-- As long as there is something ahead, the writer or the reader has a turn
that brings it closer. -/
theorem exists_turn (h : Going w queued returned d) (hne : ahead w d ≠ 0) :
    ∃ a d', Carries w a ∧ d.step a = some d' ∧ Going w queued returned d' ∧ ahead w d' < ahead w d := by
  obtain ⟨s, hs, hbye, hwriter⟩ := h.writer
  obtain ⟨o, ho, hheld, -, -⟩ := h.reader
  have hr : o.reader = .looping := by
    by_contra hr
    simp [ahead, hs, ho, hr] at hne
  rcases hwriter with hl | hhalf
  · exact h.exists_writes hs ho hr hbye hl
  · exact h.exists_takes hs ho hr hheld (.inr hhalf)

/-- Where nothing is ahead, the message has come whole. -/
theorem Going.over (h : Going w queued returned d) (hzero : ahead w d = 0) :
    ∃ o, d.ends w.other = some o ∧ o.isOpen = false ∧ o.getError = "" ∧ o.returned = returned ∧
      returned ++ o.drained.state.buffered.flatten = message queued := by
  obtain ⟨s, hs, hbye, hwriter⟩ := h.writer
  obtain ⟨o, ho, hheld, hreturned, hreader⟩ := h.reader
  obtain ⟨haccounted, -, hsealed⟩ := h.joined.ends _ o ho
  have hsaw : o.SawEnd := hreader.resolve_left fun hr => by simp [ahead, hs, ho, hr] at hzero
  have hclean := hsealed.drained_clean hheld hsaw
  obtain ⟨y, hy, hend⟩ := (h.joined.flows w).whole ho hsaw
  obtain rfl : s = y := Option.some.inj (hs.symm.trans hy)
  have hsends := (h.joined.flows w).sends s hs
  have hnotgone : s.writer ≠ .gone := by
    rintro hgone
    rcases hwriter with hl | hhalf
    · simp [hgone, Carry.Writer.listening] at hl
    · simp [hsends.half (by simp [hhalf])] at hgone
  obtain ⟨harrived, -⟩ := hend.resolve_left hnotgone
  refine ⟨o, ho, by simp [Carry.isOpen, hclean], by simp [Carry.getError, hclean], hreturned, ?_⟩
  rw [← hreturned, ← haccounted.drained_whole hsealed hheld, harrived, h.said]

/-- **What was said gets through.** In every state of a run in which script
at one end has said that its message is whole, and the writer there has not
given up, while the reader at the other end is in its loop and the stream
there not closed: turns of these two tasks alone lead to a state in which
script at the other end finds a clean end, and what it was given together
with what it can still read is the whole message. -/
theorem finish_gets_through {running : Bool} {as : List Act} {s o : Carry}
    (h : Machine.run step (start running) as = some d) (hs : d.ends w = some s) (ho : d.ends w.other = some o)
    (hbye : s.Farewell (d.queued w)) (hwriter : s.writer.listening = true ∨ s.half = .finished)
    (hr : o.reader = .looping) (hheld : o.held = true) :
    ∃ bs d' o', Machine.run step d bs = some d' ∧ (∀ a ∈ bs, Carries w a) ∧ d'.ends w.other = some o' ∧
      o'.isOpen = false ∧ o'.getError = "" ∧ o'.returned = o.returned ∧
      o'.returned ++ o'.drained.state.buffered.flatten = message (d.queued w) := by
  have hgoing : Going w (d.queued w) o.returned d :=
    ⟨joined_run h, rfl, ⟨s, hs, hbye, hwriter⟩, ⟨o, ho, hheld, rfl, .inl hr⟩⟩
  obtain ⟨bs, d', hbs, hcarries, hgoing', hzero⟩ :=
    Machine.exists_run_working_off (fun _ hP hne => exists_turn hP hne) hgoing
  obtain ⟨o', ho', hopen, herr, hreturned, hall⟩ := hgoing'.over hzero
  exact ⟨bs, d', o', hbs, hcarries, ho', hopen, herr, hreturned, hreturned ▸ hall⟩

/-- A request is finished, half of it read, and nothing more was done. -/
def halfRead : List Act :=
  [.act .ours .opened, .act .ours (.write [1, 2, 3]), .act .ours .finish, .act .ours .receive, .act .ours (.progress 1),
    .adopt true, .act .theirs (.read [1]), .act .theirs (.getPartialData 1)]

theorem finish_gets_through_halfRead : ∃ d o bs d' o', Machine.run step (start true) halfRead = some d ∧
    d.ends .theirs = some o ∧ o.returned = [1] ∧ Machine.run step d bs = some d' ∧ d'.ends .theirs = some o' ∧
    o'.isOpen = false ∧ o'.getError = "" ∧ [1] ++ o'.drained.state.buffered.flatten = message (d.queued .ours) := by
  have hrun : ((Machine.run step (start true) halfRead).bind fun d => (d.ends .ours).bind fun s =>
      (d.ends .theirs).map fun o =>
        ((s.writer.listening, decide (s.Farewell (d.queued .ours))), (o.reader, o.held), o.returned)) =
          some ((true, true), (.looping, true), [1]) := by decide +kernel
  simp only [Option.bind_eq_some_iff, Option.map_eq_some_iff, Prod.mk.injEq, decide_eq_true_eq] at hrun
  obtain ⟨d, hd, s, hs, o, ho, ⟨hl, hbye⟩, ⟨hr, hheld⟩, hreturned⟩ := hrun
  obtain ⟨bs, d', o', hbs, -, ho', hopen, herr, hsame, hall⟩ :=
    finish_gets_through hd hs ho hbye (.inl hl) hr hheld
  exact ⟨d, o, bs, d', o', hd, ho, hreturned, hbs, ho', hopen, herr, by rwa [hsame, hreturned] at hall⟩

end Gdiroh.Raw.Duplex
