/-
One end of a bidirectional stream: the two tasks of `carry` in `raw.rs`, the
`Stream` that script's calls reach them through, and the `IrohStream` around
it (`stream.rs`).

Script's calls come one at a time, and none while `get_data` waits. All else
is up to the run: what the reader reads and when, how far a write gets, when
a task takes its next step, and whether the runtime drops it first. A failed
write is one of `write_all`, whatever the reason; the writer then lets go of
its half as it is.
-/
import Gdiroh.Lib.Machine
import Gdiroh.Raw.Fidelity

namespace Gdiroh.Raw

namespace Carry

/-- Queued for the writer task. -/
inductive Chunk where
  | data (data : Bytes)
  /-- Close the write half. The read half stays open. -/
  | finish
  /-- Give up on the stream in both directions. -/
  | abort (code : UInt32)
deriving DecidableEq

inductive Writer where
  /-- `open_bi` has not answered. -/
  | opening
  /-- In `to_write.recv()`. -/
  | waiting
  /-- In `write_all`, with this much to go. -/
  | writing (rest : Bytes)
  | returned
  /-- The stream did not open, or the runtime has dropped the task. -/
  | gone
deriving DecidableEq

inductive Reader where
  /-- Not spawned yet. -/
  | starting
  | looping
  /-- Returned at the end of what there was to read, or of the attempt to open
  the stream: reported, if anybody still listens. -/
  | ended
  /-- Returned on an abort, without a word. -/
  | stopped
  /-- Dropped by the runtime, likewise. -/
  | gone
deriving DecidableEq

/-- What has become of the write half. -/
inductive Half where
  | live
  /-- `send.finish()` -/
  | finished
  /-- `send.reset(code)` -/
  | reset (code : UInt32)
  /-- Let go of after a failed write. -/
  | left
deriving DecidableEq

/-- What a read answers. -/
inductive Answer where
  | ok (bytes : Bytes)
  | errUnavailable
deriving DecidableEq

/-- `outgoing.send` has somebody to receive. -/
def Writer.listening : Writer → Bool
  | .opening | .waiting | .writing _ => true
  | .returned | .gone => false

/-- There is still a sender of reports. -/
def Reader.feeding : Reader → Bool
  | .starting | .looping => true
  | .ended | .stopped | .gone => false

end Carry

structure Carry where
  /-- `stream` is there: script has not closed it. -/
  held : Bool := true
  /-- Sent to the writer and not yet received by it. -/
  outgoing : List Carry.Chunk := []
  writer : Carry.Writer
  half : Carry.Half := .live
  /-- The data that the writer has begun to write. -/
  started : List Bytes := []
  /-- Sent to the reader by the writer. -/
  aborted : Option UInt32 := none
  reader : Carry.Reader
  /-- `recv.stop(code)` was called. -/
  stopped : Option UInt32 := none
  /-- Sent by the reader and not yet received by the main thread. -/
  reports : List Incoming := []
  state : State := {}
  /-- `get_data` is waiting for this many bytes. -/
  wanted : Option Nat := none
  /-- The last answer of `get_data` or `get_partial_data`. -/
  answer : Option Carry.Answer := none
  /-- All bytes the reader has reported. -/
  arrived : Bytes := []
  /-- All bytes handed to script. -/
  returned : Bytes := []
  /-- The aborts that returned true, each with its code and what the writer
  had begun to write. -/
  aborts : List (UInt32 × List Bytes) := []
  /-- A `get_data` has found that there is no sender of reports. -/
  noticed : Bool := false
deriving DecidableEq

namespace Carry
open Line (size)

/-- A new stream: one that is opened from here (`open`), or the remote has
opened (`adopt`); `running` is whether the runtime is. -/
def start (ours running : Bool) : Carry :=
  match ours, running with
  | true, true => { writer := .opening, reader := .starting }
  | true, false =>
    { writer := .gone, reader := .ended, reports := [.ended (some "the network runtime is not running")] }
  | false, true => { writer := .waiting, reader := .looping }
  | false, false => { writer := .gone, reader := .gone }

/-- `code.clamp(0, u32::MAX as i64) as u32` -/
def abortCode (code : Int64) : UInt32 := UInt32.ofNat (min code.toInt.toNat (2 ^ 32 - 1))

/-- `outgoing.send(..)`, where there is a stream. -/
def enqueue (s : Carry) (chunk : Chunk) : Carry :=
  if s.held ∧ s.writer.listening then { s with outgoing := s.outgoing ++ [chunk] } else s

/-- `reports.send(..)` -/
def report (s : Carry) (i : Incoming) : Carry := if s.held then { s with reports := s.reports ++ [i] } else s

/-- Every entry point of the reading side starts with this. -/
def drained (s : Carry) : Carry :=
  if s.held then { s with state := (s.state.drain s.reports).1, reports := (s.state.drain s.reports).2 } else s

/-- Hands the first bytes of the buffer to script. -/
def hand (s : Carry) (wanted : Nat) : Carry :=
  { s with
    state := (s.state.take wanted).1
    answer := some (.ok (s.state.take wanted).2)
    returned := s.returned ++ (s.state.take wanted).2 }

def isOpen (s : Carry) : Bool := s.drained.state.ended.isNone && s.held

inductive Act where
  | write (data : Bytes)
  | finish
  | abort (code : Int64)
  | close
  /-- `open_bi` answers, and `carry` starts. -/
  | opened
  | openFails (text : String)
  /-- The writer receives from its queue, or finds its sender dropped. -/
  | receive
  /-- `write_all` gets `n` bytes further. -/
  | progress (n : Nat)
  | writeFails
  /-- The reader takes the abort. -/
  | takeAbort
  | read (chunk : Bytes)
  /-- `read_chunk` yields the clean end, or fails. -/
  | readEnds (reason : Option String)
  /-- The runtime stops, and drops the writer. -/
  | dropWriter
  | dropReader
  | getData (bytes : Int32)
  /-- One turn of `fill`'s loop. -/
  | fill
  /-- `get_data` returns. -/
  | gotData
  | getPartialData (bytes : Int32)
  /-- `get_available_bytes`, `is_open` or `get_error`: each drains first. -/
  | look

/-- A call of script's. -/
def call (s : Carry) (f : Carry → Carry) : Option Carry := if s.wanted.isNone then some (f s) else none

def step (s : Carry) : Act → Option Carry
  | .write data => s.call (·.enqueue (.data data))
  | .finish => s.call (·.enqueue .finish)
  | .abort code => s.call fun s =>
    let answers := s.held && s.writer.listening
    { s.enqueue (.abort (abortCode code)) with
      aborts := if answers then s.aborts ++ [(abortCode code, s.started)] else s.aborts }
  | .close => s.call fun s =>
    { s with held := false, state := { s.state with buffered := [], available := 0 }, reports := [] }
  | .opened => if s.writer = .opening then some { s with writer := .waiting, reader := .looping } else none
  | .openFails text =>
    if s.writer = .opening then some ({ s with writer := .gone, reader := .ended }.report (.ended (some text))) else none
  | .receive =>
    match s.writer, s.outgoing with
    | .waiting, .data data :: rest =>
      some { s with outgoing := rest, writer := .writing data, started := s.started ++ [data] }
    | .waiting, .finish :: rest => some { s with outgoing := rest, writer := .returned, half := .finished }
    | .waiting, .abort code :: rest =>
      some { s with outgoing := rest, writer := .returned, half := .reset code, aborted := some code }
    | .waiting, [] => if s.held then none else some { s with writer := .returned, half := .finished }
    | _, _ => none
  | .progress n =>
    match s.writer with
    | .writing rest => some { s with writer := if (rest.drop n).isEmpty then .waiting else .writing (rest.drop n) }
    | _ => none
  | .writeFails =>
    match s.writer with
    | .writing _ => some { s with writer := .returned, half := .left }
    | _ => none
  | .takeAbort =>
    match s.reader, s.aborted with
    | .looping, some code => some { s with reader := .stopped, stopped := some code }
    | _, _ => none
  | .read chunk =>
    if s.reader = .looping then
      if s.held then some ({ s with arrived := s.arrived ++ chunk }.report (.data chunk))
      else some { s with reader := .ended }
    else none
  | .readEnds reason =>
    if s.reader = .looping then some ({ s with reader := .ended }.report (.ended reason)) else none
  | .dropWriter =>
    if s.writer.listening then
      -- Before `carry` starts there is one task, and it has the reports.
      some { s with writer := .gone, reader := if s.writer = .opening then .gone else s.reader }
    else none
  | .dropReader => if s.reader = .looping then some { s with reader := .gone } else none
  | .getData bytes => s.call fun s =>
    if size bytes = 0 then { s.drained with answer := some (.ok []) } else { s.drained with wanted := some (size bytes) }
  | .fill =>
    match s.wanted with
    | none => none
    | some wanted =>
      if s.state.available < wanted ∧ s.state.ended.isNone ∧ s.held then
        match s.reports with
        | .data chunk :: reports => some { s with state := s.state.push chunk, reports := reports }
        | .ended reason :: reports =>
          some { s with state := { s.state with ended := some reason }, reports := reports }
        | [] =>
          if s.reader.feeding then none
          else some { s with state := { s.state with ended := some (some "the stream's task ended") }, noticed := true }
      else none
  | .gotData =>
    match s.wanted with
    | none => none
    | some wanted =>
      if wanted ≤ s.state.available then some ({ s with wanted := none }.hand wanted)
      else if s.state.ended.isSome ∨ ¬ s.held then some { s with wanted := none, answer := some .errUnavailable }
      else none
  | .getPartialData bytes => s.call fun s => s.drained.hand (min (size bytes) s.drained.state.available)
  | .look => s.call drained

/-- Every code that QUIC has is one that script can give. -/
theorem abortCode_surjective (code : UInt32) : ∃ given : Int64, abortCode given = code := by
  have hlt := code.toNat_lt
  refine ⟨Int64.ofNat code.toNat, ?_⟩
  have hint : (Int64.ofNat code.toNat).toInt = code.toNat := Int64.toInt_ofNat_of_lt (by omega)
  rw [abortCode, hint, Int.toNat_natCast, Nat.min_eq_left (by omega), UInt32.ofNat_toNat]

/-! ## What a step does -/

/-- Each action, when it can be taken and what it leaves. -/
inductive Stepped (s : Carry) : Act → Carry → Prop
  | write {data} (hw : s.wanted = none) : Stepped s (.write data) (s.enqueue (.data data))
  | finish (hw : s.wanted = none) : Stepped s .finish (s.enqueue .finish)
  | abort {code} (hw : s.wanted = none) (ha : s.held = true ∧ s.writer.listening = true) :
    Stepped s (.abort code) { s with
      outgoing := s.outgoing ++ [.abort (abortCode code)], aborts := s.aborts ++ [(abortCode code, s.started)] }
  | abortLate {code} (hw : s.wanted = none) (ha : ¬ (s.held = true ∧ s.writer.listening = true)) :
    Stepped s (.abort code) s
  | close (hw : s.wanted = none) : Stepped s .close
      { s with held := false, state := { s.state with buffered := [], available := 0 }, reports := [] }
  | opened (ho : s.writer = .opening) : Stepped s .opened { s with writer := .waiting, reader := .looping }
  | openFails {text} (ho : s.writer = .opening) :
    Stepped s (.openFails text) ({ s with writer := .gone, reader := .ended }.report (.ended (some text)))
  | receiveData {data rest} (hw : s.writer = .waiting) (hq : s.outgoing = .data data :: rest) :
    Stepped s .receive { s with outgoing := rest, writer := .writing data, started := s.started ++ [data] }
  | receiveFinish {rest} (hw : s.writer = .waiting) (hq : s.outgoing = .finish :: rest) :
    Stepped s .receive { s with outgoing := rest, writer := .returned, half := .finished }
  | receiveAbort {code rest} (hw : s.writer = .waiting) (hq : s.outgoing = .abort code :: rest) :
    Stepped s .receive { s with outgoing := rest, writer := .returned, half := .reset code, aborted := some code }
  | receiveNone (hw : s.writer = .waiting) (hq : s.outgoing = []) (hh : s.held = false) :
    Stepped s .receive { s with writer := .returned, half := .finished }
  | progress {n rest} (hw : s.writer = .writing rest) : Stepped s (.progress n)
      { s with writer := if (rest.drop n).isEmpty then .waiting else .writing (rest.drop n) }
  | writeFails {rest} (hw : s.writer = .writing rest) :
    Stepped s .writeFails { s with writer := .returned, half := .left }
  | takeAbort {code} (hr : s.reader = .looping) (ha : s.aborted = some code) :
    Stepped s .takeAbort { s with reader := .stopped, stopped := some code }
  | read {chunk} (hr : s.reader = .looping) (hh : s.held = true) : Stepped s (.read chunk)
      { s with arrived := s.arrived ++ chunk, reports := s.reports ++ [.data chunk] }
  | readUnheard {chunk} (hr : s.reader = .looping) (hh : s.held = false) :
    Stepped s (.read chunk) { s with reader := .ended }
  | readEnds {reason} (hr : s.reader = .looping) :
    Stepped s (.readEnds reason) ({ s with reader := .ended }.report (.ended reason))
  | dropWriter (hl : s.writer.listening = true) : Stepped s .dropWriter
      { s with writer := .gone, reader := if s.writer = .opening then .gone else s.reader }
  | dropReader (hr : s.reader = .looping) : Stepped s .dropReader { s with reader := .gone }
  | getNothing {bytes} (hw : s.wanted = none) (h0 : size bytes = 0) :
    Stepped s (.getData bytes) { s.drained with answer := some (.ok []) }
  | getData {bytes} (hw : s.wanted = none) (h0 : size bytes ≠ 0) :
    Stepped s (.getData bytes) { s.drained with wanted := some (size bytes) }
  | fillData {wanted chunk reports} (hw : s.wanted = some wanted)
      (hg : s.state.available < wanted ∧ s.state.ended = none ∧ s.held = true) (hq : s.reports = .data chunk :: reports) :
    Stepped s .fill { s with state := s.state.push chunk, reports := reports }
  | fillEnded {wanted reason reports} (hw : s.wanted = some wanted)
      (hg : s.state.available < wanted ∧ s.state.ended = none ∧ s.held = true)
      (hq : s.reports = .ended reason :: reports) :
    Stepped s .fill { s with state := { s.state with ended := some reason }, reports := reports }
  | fillNone {wanted} (hw : s.wanted = some wanted)
      (hg : s.state.available < wanted ∧ s.state.ended = none ∧ s.held = true) (hq : s.reports = [])
      (hr : s.reader.feeding = false) : Stepped s .fill
        { s with state := { s.state with ended := some (some "the stream's task ended") }, noticed := true }
  | gotData {wanted} (hw : s.wanted = some wanted) (hle : wanted ≤ s.state.available) :
    Stepped s .gotData ({ s with wanted := none }.hand wanted)
  | gotNothing {wanted} (hw : s.wanted = some wanted) (hlt : s.state.available < wanted)
      (he : s.state.ended.isSome = true ∨ s.held = false) :
    Stepped s .gotData { s with wanted := none, answer := some .errUnavailable }
  | getPartialData {bytes} (hw : s.wanted = none) :
    Stepped s (.getPartialData bytes) (s.drained.hand (min (size bytes) s.drained.state.available))
  | look (hw : s.wanted = none) : Stepped s .look s.drained

variable {s s' : Carry}

theorem call_cases {f : Carry → Carry} (h : s.call f = some s') : s.wanted = none ∧ s' = f s := by
  unfold call at h
  split at h
  · next hw => exact ⟨Option.isNone_iff_eq_none.1 hw, (Option.some.inj h).symm⟩
  · simp at h

theorem step_cases {a : Act} (h : step s a = some s') : Stepped s a s' := by
  cases a with
  | write data =>
    simp only [step] at h
    obtain ⟨hw, rfl⟩ := call_cases h
    exact .write hw
  | finish =>
    simp only [step] at h
    obtain ⟨hw, rfl⟩ := call_cases h
    exact .finish hw
  | abort code =>
    simp only [step] at h
    obtain ⟨hw, rfl⟩ := call_cases h
    by_cases ha : s.held = true ∧ s.writer.listening = true
    · have : Stepped s (.abort code) _ := .abort hw ha
      simpa [enqueue, ha] using this
    · have hb : (s.held && s.writer.listening) = false := by simpa using ha
      have : Stepped s (.abort code) _ := .abortLate hw ha
      simpa only [enqueue, if_neg ha, hb, Bool.false_eq_true, if_false] using this
  | close =>
    simp only [step] at h
    obtain ⟨hw, rfl⟩ := call_cases h
    exact .close hw
  | opened =>
    obtain ⟨ho, rfl⟩ := by simpa [step] using h
    exact .opened ho
  | openFails text =>
    obtain ⟨ho, rfl⟩ := by simpa [step] using h
    exact .openFails ho
  | receive =>
    simp only [step] at h
    split at h
    · next hw hq => exact Option.some.inj h ▸ .receiveData hw hq
    · next hw hq => exact Option.some.inj h ▸ .receiveFinish hw hq
    · next hw hq => exact Option.some.inj h ▸ .receiveAbort hw hq
    · next hw hq =>
      split at h
      · simp at h
      · next hh => exact Option.some.inj h ▸ .receiveNone hw hq (by simpa using hh)
    · simp at h
  | progress n =>
    simp only [step] at h
    split at h
    · next hw => exact Option.some.inj h ▸ .progress hw
    · simp at h
  | writeFails =>
    simp only [step] at h
    split at h
    · next hw => exact Option.some.inj h ▸ .writeFails hw
    · simp at h
  | takeAbort =>
    simp only [step] at h
    split at h
    · next hr ha => exact Option.some.inj h ▸ .takeAbort hr ha
    · simp at h
  | read chunk =>
    simp only [step] at h
    split at h
    · next hr =>
      split at h
      · next hh =>
        have : Stepped s (.read chunk) _ := .read hr hh
        rw [report, if_pos (by exact hh)] at h
        exact Option.some.inj h ▸ this
      · next hh => exact Option.some.inj h ▸ .readUnheard hr (by simpa using hh)
    · simp at h
  | readEnds reason =>
    obtain ⟨hr, rfl⟩ := by simpa [step] using h
    exact .readEnds hr
  | dropWriter =>
    simp only [step] at h
    split at h
    · next hl => exact Option.some.inj h ▸ .dropWriter hl
    · simp at h
  | dropReader =>
    obtain ⟨hr, rfl⟩ := by simpa [step] using h
    exact .dropReader hr
  | getData bytes =>
    simp only [step] at h
    obtain ⟨hw, rfl⟩ := call_cases h
    split
    · next h0 => exact .getNothing hw h0
    · next h0 => exact .getData hw h0
  | fill =>
    simp only [step, Option.isNone_iff_eq_none] at h
    split at h
    · simp at h
    next hw =>
    split at h
    · next hg =>
      split at h
      · next hq => exact Option.some.inj h ▸ .fillData hw hg hq
      · next hq => exact Option.some.inj h ▸ .fillEnded hw hg hq
      · next hq =>
        split at h
        · simp at h
        · next hr => exact Option.some.inj h ▸ .fillNone hw hg hq (by simpa using hr)
    · simp at h
  | gotData =>
    simp only [step] at h
    split at h
    · simp at h
    next hw =>
    split at h
    · next hle => exact Option.some.inj h ▸ .gotData hw hle
    · next hlt =>
      split at h
      · next he => exact Option.some.inj h ▸ .gotNothing hw (Nat.lt_of_not_le hlt) (by simpa using he)
      · simp at h
  | getPartialData bytes =>
    simp only [step] at h
    obtain ⟨hw, rfl⟩ := call_cases h
    exact .getPartialData hw
  | look =>
    simp only [step] at h
    obtain ⟨hw, rfl⟩ := call_cases h
    exact .look hw

/-! ## What the small operations leave alone -/

section
variable (s : Carry)

theorem enqueue_eq (chunk : Chunk) : s.enqueue chunk =
    { s with outgoing := if s.held ∧ s.writer.listening then s.outgoing ++ [chunk] else s.outgoing } := by
  unfold enqueue
  split
  · rfl
  · rfl

theorem report_eq (i : Incoming) :
    s.report i = { s with reports := if s.held then s.reports ++ [i] else s.reports } := by
  unfold report
  split
  · rfl
  · rfl

theorem drained_eq : s.drained = { s with
    state := if s.held then (s.state.drain s.reports).1 else s.state
    reports := if s.held then (s.state.drain s.reports).2 else s.reports } := by
  unfold drained
  split
  · rfl
  · rfl

end
end Carry
end Gdiroh.Raw
