/-
A stream with both its ends: two of `Raw.Carry`, one where the stream was
opened and one where the remote's `pump` adopted it, and the two byte pipes of
QUIC between them. Either end's script writes, finishes, aborts, closes and
reads as it likes, and either runtime may drop a task. `Line` of `Raw.Stream`
is one direction of this, with no abort, no task dropped and a reader that
does not close.

What is assumed of QUIC. Bytes arrive in order, cut anywhere. An error of a
read or a write may come at any moment and has a text, so a reset, a stop and
a lost connection are among the errors. The clean end comes when all that was
written has been read and the write half was finished; a `SendStream` that is
dropped live is finished on the way. The remote sees a stream once something
of it was sent.

`message` is what a script has said: the bytes it put before it first finished
or aborted.
-/
import Gdiroh.Raw.Reading

namespace Gdiroh.Raw

namespace Carry

/-- What an action queues for the writer. -/
def puts (s : Carry) : Act → List Chunk
  | .write data => if s.held ∧ s.writer.listening then [.data data] else []
  | .finish => if s.held ∧ s.writer.listening then [.finish] else []
  | .abort code => if s.held ∧ s.writer.listening then [.abort (abortCode code)] else []
  | _ => []

/-- The bytes of the current write that are still to go. -/
def Writer.rest : Writer → Bytes
  | .writing rest => rest
  | _ => []

/-- What an action puts on the wire. -/
def writes (s : Carry) : Act → Bytes
  | .progress n => s.writer.rest.take n
  | _ => []

/-- How many bytes an action takes off the wire. -/
def Act.taken : Act → Nat
  | .read chunk => chunk.length
  | _ => 0

def Act.opens : Act → Bool
  | .opened => true
  | _ => false

/-- The far side can come to a clean end: the write half was finished, or
dropped as it was. -/
def finishes (s : Carry) : Bool := s.half = .finished || s.writer = .gone && s.half = .live

def getError (s : Carry) : String :=
  match s.drained.state.ended with
  | some (some reason) => reason
  | _ => ""

def getAvailableBytes (s : Carry) : Nat := min s.drained.state.available (2 ^ 31 - 1)

/-- The bytes put before the first finish or abort. -/
def message : List Chunk → Bytes
  | .data data :: chunks => data ++ message chunks
  | _ => []

/-- The first finish or abort. -/
def lastWord : List Chunk → Option Chunk
  | .data _ :: chunks => lastWord chunks
  | chunk :: _ => some chunk
  | [] => none

/-- Script said that its message is whole: it finished, or closed the stream,
before any abort. -/
def Farewell (s : Carry) (queued : List Chunk) : Prop :=
  lastWord queued = some .finish ∨ lastWord queued = none ∧ s.held = false

instance (s : Carry) (queued : List Chunk) : Decidable (s.Farewell queued) := inferInstanceAs (Decidable (_ ∨ _))

end Carry

/-- The ends of a stream. -/
inductive End where
  /-- Where it was opened. -/
  | ours
  /-- Where it was adopted. -/
  | theirs
deriving DecidableEq

def End.other : End → End
  | .ours => .theirs
  | .theirs => .ours

@[simp] theorem End.other_other (e : End) : e.other.other = e := by cases e <;> rfl

@[simp] theorem End.other_ne (e : End) : e.other ≠ e := by cases e <;> simp [End.other]

@[simp] theorem End.ne_other (e : End) : e ≠ e.other := (End.other_ne e).symm

theorem End.eq_or (x e : End) : x = e ∨ x = e.other := by cases x <;> cases e <;> simp [End.other]

structure Duplex where
  ends : End → Option Carry
  /-- `open_bi` has answered. -/
  opened : Bool := false
  /-- What an end has written and the other has not read. -/
  pipe : End → Bytes := fun _ => []
  /-- All that an end has written. -/
  written : End → Bytes := fun _ => []
  /-- All that was queued for an end's writer. -/
  queued : End → List Carry.Chunk := fun _ => []

namespace Duplex

inductive Act where
  /-- A call of an end's script, or a step of its tasks. -/
  | act (e : End) (a : Carry.Act)
  /-- The remote's acceptor comes upon the stream. -/
  | adopt (running : Bool)

/-- A new stream, with the runtime running or not. -/
def start (running : Bool) : Duplex where
  ends := fun
    | .ours => some (.start true running)
    | .theirs => none

/-- What the wire lets an end's reader have. -/
def allows (d : Duplex) (e : End) : Carry.Act → Bool
  | .read chunk => !chunk.isEmpty && decide (chunk.length ≤ readChunk) && chunk.isPrefixOf (d.pipe e.other)
  | .readEnds none => (d.pipe e.other).isEmpty && (d.ends e.other).any (·.finishes)
  | .readEnds (some text) | .openFails text => text ≠ ""
  | _ => true

/-- Something of the stream was sent. -/
def shown (d : Duplex) : Bool :=
  d.opened && (d.ends .ours).any fun s => d.written .ours ≠ [] || s.half ≠ .live || s.writer = .gone

/-- An end goes from `s` to `s'`. -/
def acted (d : Duplex) (e : End) (a : Carry.Act) (s s' : Carry) : Duplex where
  ends := Function.update d.ends e (some s')
  opened := d.opened || a.opens
  pipe := fun x => if x = e then d.pipe e ++ s.writes a else (d.pipe x).drop a.taken
  written := Function.update d.written e (d.written e ++ s.writes a)
  queued := Function.update d.queued e (d.queued e ++ s.puts a)

def step (d : Duplex) : Act → Option Duplex
  | .act e a =>
    (d.ends e).bind fun s => if d.allows e a then (s.step a).map fun s' => d.acted e a s s' else none
  | .adopt running =>
    if (d.ends .theirs).isNone ∧ d.shown then
      some { d with ends := Function.update d.ends .theirs (some (.start false running)) }
    else none

/-! ## What a step does -/

variable {d d' : Duplex}

/-- Each action, when it can be taken and what it leaves. -/
inductive Stepped (d : Duplex) : Act → Duplex → Prop
  | act {e a s s'} (he : d.ends e = some s) (ha : d.allows e a = true) (hs : s.step a = some s') :
    Stepped d (.act e a) (d.acted e a s s')
  | adopt {running} (hn : d.ends .theirs = none) (hshown : d.shown = true) : Stepped d (.adopt running)
      { d with ends := Function.update d.ends .theirs (some (.start false running)) }

theorem step_cases {a : Act} (h : d.step a = some d') : Stepped d a d' := by
  cases a with
  | act e a =>
    simp only [step, Option.bind_eq_some_iff] at h
    obtain ⟨s, he, h⟩ := h
    split at h
    · next ha =>
      obtain ⟨s', hs, rfl⟩ := Option.map_eq_some_iff.1 h
      exact .act he ha hs
    · simp at h
  | adopt running =>
    obtain ⟨⟨hn, hshown⟩, rfl⟩ := by simpa [step] using h
    exact .adopt hn hshown

section
variable {e x : End} {a : Carry.Act} {s s' : Carry}

@[simp] theorem acted_ends : (d.acted e a s s').ends e = some s' := Function.update_self ..
@[simp] theorem acted_pipe : (d.acted e a s s').pipe e = d.pipe e ++ s.writes a := if_pos rfl
@[simp] theorem acted_written : (d.acted e a s s').written e = d.written e ++ s.writes a := Function.update_self ..
@[simp] theorem acted_queued : (d.acted e a s s').queued e = d.queued e ++ s.puts a := Function.update_self ..

/-! The other end reads what is written, and is left alone. -/

theorem acted_ends_ne (hx : x ≠ e) : (d.acted e a s s').ends x = d.ends x := Function.update_of_ne hx ..
theorem acted_pipe_ne (hx : x ≠ e) : (d.acted e a s s').pipe x = (d.pipe x).drop a.taken := if_neg hx
theorem acted_written_ne (hx : x ≠ e) : (d.acted e a s s').written x = d.written x := Function.update_of_ne hx ..
theorem acted_queued_ne (hx : x ≠ e) : (d.acted e a s s').queued x = d.queued x := Function.update_of_ne hx ..

end

end Duplex
end Gdiroh.Raw
