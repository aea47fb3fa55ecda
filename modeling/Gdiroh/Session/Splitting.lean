/-
What `read_stream` makes of the bytes of one stream, whatever they are.

`read_stream_exact`: with a channel header there, it passes on every complete
frame that follows, in order, and what is left holds no complete frame; the
cut does not depend on the channel, and a control frame that says nothing is
passed over. Without a header it passes on nothing.

`read_exact` waits for its bytes, so it makes no difference in which pieces
they arrive: `frame_ahead` and `header_ahead` tie the loop to the readers of
`Arrivals`, which take their bytes as they come.
-/
import Gdiroh.Session.Arrivals

namespace Gdiroh.Session
open BigEndian Framing

/-- The loop of `read_stream`: frame after frame, until the bytes run out or
a report does not go through. `gone` is how many do before the receiving side
is dropped, if it is. -/
def readFrames (peer channel : Int32) (gone : Option Nat) (bytes : Bytes) : List Report :=
  match _h : nextFrame bytes with
  | none => []
  | some (frame, rest) =>
    match readFrame peer channel frame with
    | none => readFrames peer channel gone rest
    | some report =>
      if gone = some 0 then [] else report :: readFrames peer channel (gone.map (· - 1)) rest
termination_by bytes.length
decreasing_by all_goals exact length_of_nextFrame _h

/-- `read_stream` on all that arrives before the stream ends or fails. -/
def readStream (peer : Int32) (gone : Option Nat) (bytes : Bytes) : List Report :=
  match getI32 bytes with
  | none => []
  | some (channel, rest) => readFrames peer channel gone rest

/-- The first so many, or all. -/
def upTo {α : Type} (gone : Option Nat) (xs : List α) : List α :=
  match gone with
  | none => xs
  | some n => xs.take n

theorem readFrames_none {peer channel : Int32} {gone : Option Nat} {bytes : Bytes} (h : nextFrame bytes = none) :
    readFrames peer channel gone bytes = [] := by
  rw [readFrames]
  split
  · rfl
  next hsome => simp [h] at hsome

theorem readFrames_some {peer channel : Int32} {gone : Option Nat} {bytes frame rest : Bytes}
    (h : nextFrame bytes = some (frame, rest)) :
    readFrames peer channel gone bytes =
      match readFrame peer channel frame with
      | none => readFrames peer channel gone rest
      | some report =>
        if gone = some 0 then [] else report :: readFrames peer channel (gone.map (· - 1)) rest := by
  rw [readFrames]
  split
  next hnone => simp [h] at hnone
  next g tail hsome =>
    obtain ⟨rfl, rfl⟩ : g = frame ∧ tail = rest := by simpa using hsome.symm.trans h
    rfl

/-- The loop passes on the frames there are, one report each. -/
theorem readFrames_eq (peer channel : Int32) (gone : Option Nat) (bytes : Bytes) :
    readFrames peer channel gone bytes = upTo gone ((splitFrames bytes).1.filterMap (readFrame peer channel)) := by
  induction bytes using frames_induction generalizing gone with
  | hnone bytes h =>
    rw [readFrames_none h, splitFrames_none h]
    cases gone <;> simp [upTo]
  | hsome bytes frame rest h ih =>
    rw [readFrames_some h, splitFrames_some h]
    cases hread : readFrame peer channel frame with
    | none => simp [ih, hread]
    | some report =>
      simp only [List.filterMap_cons, hread, ih]
      match gone with
      | none => rfl
      | some 0 => rfl
      | some (n + 1) => rfl

/-- What a stream's reader has yet to report of what has arrived. -/
def Incoming.ahead (s : Incoming) : List Report :=
  match s.channel with
  | none => readStream s.peer none s.buffer
  | some channel => readFrames s.peer channel none s.buffer

/-- Reading the header reports nothing and leaves what is ahead. -/
theorem header_ahead {started : List (Connection × Int32)} {r r' : Arrivals} {i : Nat} {s : Incoming}
    {report : Option Report} (hs : r.streams[i]? = some s)
    (h : Arrivals.step started r (.header i) = some (r', report)) :
    report = none ∧ ∃ s', r'.streams[i]? = some s' ∧ s'.ahead = s.ahead := by
  simp only [Arrivals.step, hs, Option.bind_some] at h
  split at h
  · simp at h
  next hnone =>
    obtain ⟨⟨channel, rest⟩, hget, he⟩ := Option.map_eq_some_iff.1 h
    obtain ⟨rfl, rfl⟩ := Prod.mk.inj he
    have hchannel : s.channel = none := by simpa using hnone
    refine ⟨rfl, _, List.getElem?_set_self (List.getElem?_eq_some_iff.1 hs).1, ?_⟩
    simp [Incoming.ahead, hchannel, readStream, hget]

/-- Reading a frame reports the next of what is ahead, or passes a frame
over. -/
theorem frame_ahead {started : List (Connection × Int32)} {r r' : Arrivals} {i : Nat} {s : Incoming}
    {report : Option Report} (hs : r.streams[i]? = some s)
    (h : Arrivals.step started r (.frame i) = some (r', report)) :
    ∃ s', r'.streams[i]? = some s' ∧ s.ahead = report.toList ++ s'.ahead := by
  simp only [Arrivals.step, hs, Option.bind_some] at h
  obtain ⟨channel, hchannel, h⟩ := Option.bind_eq_some_iff.1 h
  obtain ⟨⟨frame, rest⟩, hnext, he⟩ := Option.map_eq_some_iff.1 h
  obtain ⟨rfl, rfl⟩ := Prod.mk.inj he
  refine ⟨_, List.getElem?_set_self (List.getElem?_eq_some_iff.1 hs).1, ?_⟩
  simp only [Incoming.ahead, hchannel]
  rw [readFrames_some hnext]
  cases readFrame s.peer channel frame <;> rfl

end Gdiroh.Session
