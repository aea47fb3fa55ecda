/-
One stream of frames over a byte pipe: a writer that takes frames off a
queue, a pipe that carries bytes in order and may stop at any byte, and a
reader that splits what has arrived.

The stream opens with a 32-bit tag. Writer, pipe and reader take their steps
in any order, and the frames the reader has passed on are always a prefix of
the frames handed to the queue (`Sound.emitted_isPre`). The queue itself
belongs to the producer: `handed` is everything it was ever given, and the
writer remembers how many of these it has taken.
-/
import Gdiroh.Lib.Bytes

namespace FramedPipe
open BigEndian Framing

structure Pipe where
  opened : Bool := false
  /-- The writer gave up: the stream was refused or a write failed. -/
  failed : Bool := false
  /-- Frames the writer has taken off its queue. -/
  taken : Nat := 0
  /-- What the writer is in the middle of writing. -/
  pending : Bytes := []
  /-- Written and not yet arrived. -/
  transit : Bytes := []
  /-- Arrived and not yet read. -/
  buffer : Bytes := []
  /-- The tag, once the reader has it. -/
  tag : Option Int32 := none
  /-- Frames the reader has passed on, oldest first. -/
  emitted : List Bytes := []
deriving DecidableEq

inductive Act where
  /-- The stream opens; the writer starts on the tag. -/
  | open
  /-- The stream cannot be opened, or a write fails. -/
  | fail
  /-- The writer takes the next frame, once the last one is written. -/
  | take
  /-- The writer gets `n` more bytes out. -/
  | write (n : Nat)
  /-- `n` more bytes arrive. -/
  | carry (n : Nat)
  /-- The reader reads the tag. -/
  | readTag
  /-- The reader reads one frame. -/
  | readFrame
deriving DecidableEq

/-- The frame the reader reads next, once all of it has arrived. -/
def Pipe.next (p : Pipe) : Option Bytes :=
  if p.tag.isSome then (nextFrame p.buffer).map (·.1) else none

def Pipe.step (tag : Int32) (handed : List Bytes) (p : Pipe) : Act → Option Pipe
  | .open => if p.opened || p.failed then none else some { p with opened := true, pending := putI32 tag }
  | .fail => some { p with failed := true }
  | .take =>
    if p.opened && !p.failed && p.pending.isEmpty then
      (handed[p.taken]?).map fun f => { p with taken := p.taken + 1, pending := frame f }
    else none
  | .write n =>
    if p.failed then none
    else if n ≤ p.pending.length then
      some { p with pending := p.pending.drop n, transit := p.transit ++ p.pending.take n }
    else none
  | .carry n =>
    if n ≤ p.transit.length then
      some { p with transit := p.transit.drop n, buffer := p.buffer ++ p.transit.take n }
    else none
  | .readTag =>
    if p.tag.isSome then none
    else (getI32 p.buffer).map fun (t, rest) => { p with tag := some t, buffer := rest }
  | .readFrame =>
    if p.tag.isSome then
      (nextFrame p.buffer).map fun (f, rest) => { p with buffer := rest, emitted := p.emitted ++ [f] }
    else none

/-- Only reading a frame passes one on. -/
theorem Pipe.emitted_step {tag : Int32} {handed : List Bytes} {p p' : Pipe} {a : Act}
    (h : p.step tag handed a = some p') (ha : a ≠ .readFrame) : p'.emitted = p.emitted := by
  cases a with
  | readFrame => exact absurd rfl ha
  | fail =>
    simp only [Pipe.step, Option.some.injEq] at h
    rw [← h]
  | «open» | write | carry | take | readTag =>
    simp only [Pipe.step] at h
    grind [Option.map_eq_some_iff]

theorem Pipe.emitted_readFrame {tag : Int32} {handed : List Bytes} {p p' : Pipe} {f : Bytes}
    (h : p.step tag handed .readFrame = some p') (hf : p.next = some f) : p'.emitted = p.emitted ++ [f] := by
  simp only [Pipe.step] at h
  simp only [Pipe.next] at hf
  split at h
  · next ht =>
    rw [if_pos ht] at hf
    simp only [Option.map_eq_some_iff, Prod.exists] at h hf
    obtain ⟨g, rest, hg, rfl⟩ := h
    obtain ⟨f', rest', hf', rfl⟩ := hf
    rw [hg, Option.some.injEq, Prod.mk.injEq] at hf'
    rw [← hf'.1]
  · simp at h

/-- What the reader has taken off the stream, put back on the wire. -/
def Pipe.consumed (p : Pipe) : Bytes :=
  match p.tag with
  | none => []
  | some t => putI32 t ++ encodeFrames p.emitted

/-- Every byte of the stream is where it should be: read, arrived, under
way or about to be written, in this order. -/
structure Sound (tag : Int32) (handed : List Bytes) (p : Pipe) : Prop where
  taken_le : p.taken ≤ handed.length
  idle : p.opened = false → p.taken = 0
  bytes : p.consumed ++ p.buffer ++ p.transit ++ p.pending =
    if p.opened then putI32 tag ++ encodeFrames (handed.take p.taken) else []
  untagged : p.tag = none → p.emitted = []
  short : ∀ f ∈ p.emitted, f.length < 2 ^ 32

variable {tag : Int32} {handed : List Bytes} {p p' : Pipe}

theorem Sound.init : Sound tag handed {} := by
  constructor <;> simp [Pipe.consumed]

/-- Frames handed later do not disturb what is under way. -/
theorem Sound.hand (h : Sound tag handed p) (more : List Bytes) : Sound tag (handed ++ more) p where
  taken_le := by
    have := h.taken_le
    simp only [List.length_append]
    omega
  idle := h.idle
  bytes := by rw [List.take_append_of_le_length h.taken_le]; exact h.bytes
  untagged := h.untagged
  short := h.short

/-- **Every step keeps the bytes in place.** -/
theorem Sound.step (h : Sound tag handed p) {a : Act} (hs : p.step tag handed a = some p') :
    Sound tag handed p' := by
  obtain ⟨hle, hidle, hbytes, huntag, hshort⟩ := h
  cases a with
  | «open» =>
    simp only [Pipe.step] at hs
    split at hs
    · simp at hs
    next hno =>
    simp only [Bool.or_eq_true, not_or, Bool.not_eq_true] at hno
    simp only [Option.some.injEq] at hs
    subst hs
    simp only [hno.1, Bool.false_eq_true, ite_false, List.append_eq_nil_iff] at hbytes
    obtain ⟨⟨⟨hc, hb⟩, ht⟩, -⟩ := hbytes
    have htaken := hidle hno.1
    refine ⟨hle, by simp, ?_, huntag, hshort⟩
    rw [show Pipe.consumed { p with opened := true, pending := putI32 tag } = p.consumed from rfl]
    simp [hc, hb, ht, htaken]
  | fail =>
    simp only [Pipe.step, Option.some.injEq] at hs
    subst hs
    exact ⟨hle, hidle, hbytes, huntag, hshort⟩
  | take =>
    simp only [Pipe.step] at hs
    split at hs
    · next hcond =>
      simp only [Bool.and_eq_true, List.isEmpty_iff] at hcond
      obtain ⟨⟨hop, -⟩, hpend⟩ := hcond
      simp only [Option.map_eq_some_iff] at hs
      obtain ⟨f, hf, rfl⟩ := hs
      obtain ⟨hlt, hget⟩ := List.getElem?_eq_some_iff.1 hf
      refine ⟨hlt, by simp [hop], ?_, huntag, hshort⟩
      simp only [hop, ite_true, hpend, List.append_nil] at hbytes ⊢
      rw [← List.take_append_getElem hlt, hget, encodeFrames_append, ← List.append_assoc, ← hbytes]
      simp [Pipe.consumed]
    · simp at hs
  | write n =>
    simp only [Pipe.step] at hs
    split at hs
    · simp at hs
    split at hs
    · simp only [Option.some.injEq] at hs
      subst hs
      refine ⟨hle, hidle, ?_, huntag, hshort⟩
      rw [← hbytes]
      simp [Pipe.consumed]
    · simp at hs
  | carry n =>
    simp only [Pipe.step] at hs
    split at hs
    · simp only [Option.some.injEq] at hs
      subst hs
      refine ⟨hle, hidle, ?_, huntag, hshort⟩
      rw [← hbytes]
      simp only [List.append_assoc, Pipe.consumed]
      rw [← List.append_assoc (p.transit.take n), List.take_append_drop]
    · simp at hs
  | readTag =>
    simp only [Pipe.step] at hs
    split at hs
    · simp at hs
    next htag =>
    simp only [Option.map_eq_some_iff, Prod.exists] at hs
    obtain ⟨t, rest, hget, rfl⟩ := hs
    have hnone : p.tag = none := by simpa using htag
    have hem := huntag hnone
    refine ⟨hle, hidle, ?_, by simp, hshort⟩
    rw [← hbytes]
    simp [Pipe.consumed, hnone, hem, getI32_eq_some.1 hget]
  | readFrame =>
    simp only [Pipe.step] at hs
    split at hs
    · next htag =>
      simp only [Option.map_eq_some_iff, Prod.exists] at hs
      obtain ⟨f, rest, hnext, rfl⟩ := hs
      obtain ⟨t, ht⟩ := Option.isSome_iff_exists.1 htag
      obtain ⟨hbuf, hf⟩ := nextFrame_eq_some.1 hnext
      refine ⟨hle, hidle, ?_, by simp [ht], ?_⟩
      · rw [← hbytes]
        simp [Pipe.consumed, ht, hbuf]
      · intro g hg
        rcases List.mem_append.1 hg with hg | hg
        · exact hshort g hg
        · rw [List.mem_singleton.1 hg]; exact hf
    · simp at hs

/-- A stream whose reader has a tag was opened, and the tag is its own. -/
theorem Sound.tag_eq (h : Sound tag handed p) {t : Int32} (ht : p.tag = some t) :
    t = tag ∧ encodeFrames p.emitted ++ (p.buffer ++ p.transit ++ p.pending) =
      encodeFrames (handed.take p.taken) := by
  have hbytes := h.bytes
  simp only [Pipe.consumed, ht, List.append_assoc] at hbytes
  split at hbytes
  · have hget := getI32_putI32 t (encodeFrames p.emitted ++ (p.buffer ++ (p.transit ++ p.pending)))
    rw [hbytes, getI32_putI32, Option.some.injEq, Prod.mk.injEq] at hget
    exact ⟨hget.1.symm, by simpa using hget.2.symm⟩
  · have := congrArg List.length hbytes
    simp at this

/-- **In order, once, unaltered.** The frames passed on are the first of the
frames handed over, as long as each of these fits the 32-bit length. -/
theorem Sound.emitted_isPre (h : Sound tag handed p) (hlen : ∀ f ∈ handed, f.length < 2 ^ 32) :
    p.emitted <+: handed := by
  cases ht : p.tag with
  | none => rw [h.untagged ht]; exact List.nil_prefix
  | some t =>
    obtain ⟨-, hbytes⟩ := h.tag_eq ht
    have htake : p.emitted <+: handed.take p.taken :=
      encodeFrames_isPre h.short (fun f hf => hlen f (List.mem_of_mem_take hf))
        (by rw [hbytes])
    exact htake.trans (List.take_prefix _ _)

end FramedPipe
