/-
One direction of a stream, from `put_data` at one end to `get_data` at the
other: the writing half of `carry` in `raw.rs`, QUIC's byte pipe, the reading
half of `carry`, and the `State` behind `IrohStream` in `stream.rs`.

The script calls that never wait are one step each. `get_data` waits, so it is
several: it starts, takes reports one by one (`fill`), and returns. Which
chunks QUIC cuts the bytes into, and how far a write gets at a time, is up to
the run. So is failing, of the writer and of the reader; what is not is a
clean end, which comes when the writer has finished and its bytes are read.
-/
import Gdiroh.Lib.Bytes

namespace Gdiroh.Raw

/-- Largest slice taken from a stream in one read. -/
def readChunk : Nat := 64 * 1024

/-- Queued for the writer task; nothing is aborted here. -/
inductive Chunk where
  | data (data : Bytes)
  | finish
deriving DecidableEq

/-- Read off a stream, in the order it arrived. -/
inductive Incoming where
  | data (chunk : Bytes)
  /-- The remote finished writing (`none`) or the stream failed (`some`). -/
  | ended (reason : Option String)
deriving DecidableEq

/-- The writing half of `carry`. -/
inductive Writer where
  /-- `open_bi` has not answered. -/
  | opening
  /-- In `to_write.recv()`. -/
  | waiting
  /-- In `write_all`, with this much to go. -/
  | writing (rest : Bytes)
  /-- `send.finish()` is called. -/
  | finished
  /-- Given up: the stream did not open, or a write failed. -/
  | failed
deriving DecidableEq

/-- What `IrohStream` keeps. The reading end is not closed, so `stream` is not
among it. -/
structure State where
  /-- Read off the network, not yet handed to script. -/
  buffered : List Bytes := []
  available : Nat := 0
  /-- Set once the remote stops sending. `none` inside means a clean finish. -/
  ended : Option (Option String) := none
deriving DecidableEq

namespace State

def push (s : State) (chunk : Bytes) : State :=
  { s with available := s.available + chunk.length, buffered := s.buffered ++ [chunk] }

/-- Moves whatever the reader task has produced into the buffer; what is
left of it comes second. -/
def drain (s : State) : List Incoming → State × List Incoming
  | [] => (s, [])
  | .data chunk :: reports => (s.push chunk).drain reports
  | .ended reason :: reports => ({ s with ended := some reason }, reports)

/-- Copies `wanted` bytes out of the chunks, or all there are. -/
def takeChunks : List Bytes → Nat → Bytes × List Bytes
  | buffered, 0 => ([], buffered)
  | [], _ + 1 => ([], [])
  | chunk :: buffered, wanted + 1 =>
    let take := min chunk.length (wanted + 1)
    if (chunk.drop take).isEmpty then
      let (bytes, left) := takeChunks buffered (wanted + 1 - take)
      (chunk.take take ++ bytes, left)
    else (chunk.take take, chunk.drop take :: buffered)

/-- Fills a buffer of `wanted` bytes from the front of the queue. -/
def take (s : State) (wanted : Nat) : State × Bytes :=
  let (bytes, left) := takeChunks s.buffered wanted
  ({ s with buffered := left, available := s.available - bytes.length }, bytes)

end State

/-- Both ends of a stream, one direction. -/
structure Line where
  /-- The writing end's `stream` is still there. -/
  held : Bool := true
  /-- Sent to the writer task and not yet received by it. -/
  queue : List Chunk := []
  writer : Writer := .opening
  /-- Written and not yet read. -/
  pipe : Bytes := []
  /-- The reading half of `carry` is still in its loop. -/
  reading : Bool := true
  /-- Sent by it and not yet received by the main thread. -/
  reports : List Incoming := []
  state : State := {}
  /-- `get_data` is waiting for this many bytes. -/
  wanted : Option Nat := none
  /-- The bytes put before the first finish or close. -/
  put : Bytes := []
  /-- There was a finish or a close. -/
  stopped : Bool := false
  /-- The bytes handed to script. -/
  returned : Bytes := []
deriving DecidableEq

inductive Line.Act where
  /-- `put_data` or `put_partial_data`. -/
  | put (data : Bytes)
  | finish
  | close
  /-- `open_bi` answers. -/
  | opened
  /-- The writer receives from its queue, or finds its sender dropped. -/
  | receive
  /-- `write_all` gets `n` bytes further. -/
  | write (n : Nat)
  /-- `open_bi` or `write_all` fails. -/
  | writeFails
  /-- `read_chunk` yields `n` bytes. -/
  | read (n : Nat)
  /-- `read_chunk` yields the clean end. -/
  | readEnds
  /-- `read_chunk` fails with an error of this text. -/
  | readFails (text : String)
  /-- `get_data` is called. -/
  | getData (bytes : Int32)
  /-- It takes a report. -/
  | fill
  /-- It returns. -/
  | gotData
  | getPartialData (bytes : Int32)
  /-- `get_available_bytes`, `is_open` or `get_error`: each drains first. -/
  | look

namespace Line

/-- `r_bytes.max(0) as usize`. -/
def size (bytes : Int32) : Nat := bytes.toInt.toNat

/-- Every entry point of the reading end starts with this. -/
def drained (l : Line) : Line :=
  { l with state := (l.state.drain l.reports).1, reports := (l.state.drain l.reports).2 }

/-- Hands the first bytes of the buffer to script. -/
def hand (l : Line) (wanted : Nat) : Line :=
  { l with state := (l.state.take wanted).1, returned := l.returned ++ (l.state.take wanted).2 }

/-- The receiving half of the queue is gone once the writer has returned, and
a send to it fails. -/
def enqueue (l : Line) (chunk : Chunk) : Line :=
  match l.writer with
  | .finished | .failed => l
  | _ => { l with queue := l.queue ++ [chunk] }

def isOpen (l : Line) : Bool := l.drained.state.ended.isNone

def getError (l : Line) : String :=
  match l.drained.state.ended with
  | some (some reason) => reason
  | _ => ""

def getAvailableBytes (l : Line) : Nat := min l.drained.state.available (2 ^ 31 - 1)

/-- A call of the reading end: none is made while `get_data` waits. -/
def call (l : Line) (f : Line → Line) : Option Line :=
  if l.wanted.isNone then some (f l.drained) else none

def step (l : Line) : Act → Option Line
  | .put data =>
    if ¬ l.held ∨ data = [] then some l
    else
      let l := if l.stopped then l else { l with put := l.put ++ data }
      some (l.enqueue (.data data))
  | .finish => if l.held then some ({ l with stopped := true }.enqueue .finish) else some l
  | .close => some { l with held := false, stopped := true }
  | .opened => if l.writer = .opening then some { l with writer := .waiting } else none
  | .receive =>
    match l.writer, l.queue with
    | .waiting, .data data :: queue => some { l with queue := queue, writer := .writing data }
    | .waiting, .finish :: queue => some { l with queue := queue, writer := .finished }
    | .waiting, [] => if l.held then none else some { l with writer := .finished }
    | _, _ => none
  | .write n =>
    match l.writer with
    | .writing rest => some { l with
        pipe := l.pipe ++ rest.take n
        writer := if (rest.drop n).isEmpty then .waiting else .writing (rest.drop n) }
    | _ => none
  | .writeFails =>
    match l.writer with
    | .opening | .writing _ => some { l with writer := .failed }
    | _ => none
  | .read n =>
    if l.reading ∧ l.pipe ≠ [] ∧ 0 < n ∧ n ≤ readChunk then
      some { l with pipe := l.pipe.drop n, reports := l.reports ++ [.data (l.pipe.take n)] }
    else none
  | .readEnds =>
    if l.reading ∧ l.writer = .finished ∧ l.pipe = [] then
      some { l with reading := false, reports := l.reports ++ [.ended none] }
    else none
  | .readFails text =>
    if l.reading then some { l with reading := false, reports := l.reports ++ [.ended (some text)] } else none
  | .getData bytes =>
    l.call fun l => if size bytes = 0 then l else { l with wanted := some (size bytes) }
  | .fill =>
    match l.wanted with
    | none => none
    | some wanted =>
      if l.state.available < wanted ∧ l.state.ended.isNone then
        match l.reports with
        | .data chunk :: reports => some { l with state := l.state.push chunk, reports := reports }
        | .ended reason :: reports =>
          some { l with state := { l.state with ended := some reason }, reports := reports }
        | [] =>
          -- Only once the reader task is gone does the wait end without a report.
          if l.reading then none
          else some { l with state := { l.state with ended := some (some "the stream's task ended") } }
      else none
  | .gotData =>
    match l.wanted with
    | none => none
    | some wanted =>
      if wanted ≤ l.state.available then some ({ l with wanted := none }.hand wanted)
      else if l.state.ended.isSome then some { l with wanted := none }
      else none
  | .getPartialData bytes => l.call fun l => l.hand (min (size bytes) l.state.available)
  | .look => l.call id

end Line
end Gdiroh.Raw
