/-
The ordered packets of one link and channel, on the two paths they take: a
datagram when it fits, and the channel's stream when it does not
(`write_datagram`). Each path has a reader of its own, and only the datagram
reader looks at the numbers.

So the two paths do not wait for each other: a packet on a slow stream is
delivered after datagrams sent later (`overtaken`), and a slow datagram after
packets on the stream. `in_order_iff` is the exact condition on the arrivals.

`newer_delivered` is about the datagram reader alone, over sends of any number
and arrivals in any order and any number of times: a datagram sent up to 2³¹
sends after the last one it accepted is never taken for an old one.
-/
import Gdiroh.Lib.FramedPipe
import Gdiroh.Session.Ordered

namespace Gdiroh.Session
open Rounds FramedPipe

/-- The ordered packets of one link and channel, at both ends. -/
structure Track where
  /-- The sender. -/
  state : State
  /-- The ordered sends on the channel so far. -/
  sends : Nat := 0
  /-- The datagrams handed to QUIC, each ordered one of the channel with the
  count of its send. -/
  wire : List (Option Nat × Bytes) := []
  /-- The frames queued for the channel's stream, each that fell back to it
  with the count of its send. -/
  frames : List (Option Nat × Bytes) := []
  pipe : Pipe := {}
  /-- What the datagram reader remembers. -/
  last : Last := ∅
  /-- The places on the wire of the datagrams that arrived. -/
  arrived : List Nat := []
  /-- The counts that arrived in datagrams. -/
  seen : List Nat := []
  /-- The counts that the datagram reader accepted, oldest first. -/
  accepted : List Nat := []
  /-- The counts that were read off the stream. -/
  read : List Nat := []
  /-- The counts delivered, by either reader, oldest first. -/
  delivered : List Nat := []

inductive Track.Act where
  /-- The sender sends on the link. -/
  | send (limits : Limits) (channel : Int32) (mode : Mode) (data : Bytes)
  /-- The datagram at this place on the wire arrives. -/
  | arrive (i : Nat)
  /-- The stream's writer, the stream or its reader takes a step. -/
  | stream (act : FramedPipe.Act)

namespace Track

/-- A link as `add_link` makes it, and readers that have read nothing. -/
def start (s : State) (peer : Int32) (c : Connection) : Track := { state := s.addLink peer c }

section
variable (peer channel sender : Int32)

/-- The count of the packet that a turn of the stream delivers. The frames of
a stream are read in the order in which they were queued. -/
def passed (t : Track) : FramedPipe.Act → List Nat
  | .readFrame =>
    match t.pipe.next.bind fun frame => t.pipe.tag.bind fun tag => readFrame sender tag frame with
    | some (.packet _) => (t.frames[t.pipe.emitted.length]?.bind (·.1)).toList
    | _ => []
  | _ => []

/-- One step on the link to `peer`, for the ordered packets of `channel`;
`sender` is the sender's id at the reader's end. Datagrams arrive in any order
and any number of times. -/
def step (t : Track) : Act → Option Track
  | .send limits ch mode data =>
    let state := t.state.sendOne limits peer ch mode data
    let sends := if ch = channel ∧ mode = .unreliableOrdered then t.sends + 1 else t.sends
    let count := if ch = channel ∧ mode = .unreliableOrdered then some (t.sends + 1) else none
    let datagrams := state.datagrams.drop t.state.datagrams.length
    let queued := if ch = channel then state.queued.drop t.state.queued.length else []
    some { t with
      state := state
      sends := sends
      wire := t.wire ++ datagrams.map fun d => (count, d.2)
      frames := t.frames ++ queued.map fun q => (count, q.2) }
  | .arrive i =>
    match t.wire[i]? with
    | none => none
    | some (count, datagram) =>
      let (last, packet) := readDatagram sender t.last datagram
      let new := if packet.isSome then count.toList else []
      some { t with
        last := last
        arrived := i :: t.arrived
        seen := count.toList ++ t.seen
        accepted := t.accepted ++ new
        delivered := t.delivered ++ new }
  | .stream act =>
    (t.pipe.step channel (t.frames.map (·.2)) act).map fun pipe =>
      { t with
        pipe := pipe
        read := t.read ++ t.passed sender act
        delivered := t.delivered ++ t.passed sender act }

/-- What is delivered on the channel is in the order it was sent. -/
def Increasing (t : Track) : Prop := t.delivered.Pairwise (· < ·)

/-- The packet that is read off the stream was sent after every datagram that
has arrived. A datagram that arrives was sent after everything read off the
stream, or before a datagram that has arrived. -/
def Ahead (t : Track) : Act → Prop
  | .send .. => True
  | .arrive i => ∀ k ∈ t.wire[i]?.bind (·.1), (∃ j ∈ t.seen, k < j) ∨ ∀ j ∈ t.read, j < k
  | .stream act => ∀ k ∈ t.passed sender act, ∀ j ∈ t.seen, j < k

instance (t : Track) : ∀ a, Decidable (Ahead sender t a)
  | .send .. => isTrue trivial
  | .arrive i => inferInstanceAs (Decidable (∀ k ∈ t.wire[i]?.bind (·.1), _))
  | .stream act => inferInstanceAs (Decidable (∀ k ∈ t.passed sender act, _))

end

/-! ## What holds of a track -/

/-- The counter and the reader's number are at the places of the last send and
of the last datagram accepted, and no count is on two places. -/
structure Sound (peer channel : Int32) (t : Track) : Prop where
  counter : Lane.Counts peer channel t.state t.sends
  stamped : ∀ w ∈ t.wire, Lane.Stamped channel w
  bounded : ∀ k d, (some k, d) ∈ t.wire → k ≤ t.sends
  unique : ∀ (i j k : Nat) (d e : Bytes), t.wire[i]? = some (some k, d) → t.wire[j]? = some (some k, e) → i = j
  frames : (t.frames.filterMap (·.1)).Pairwise (· < ·)
  framed : ∀ k ∈ t.frames.filterMap (·.1), k ≤ t.sends
  seen : ∀ k ∈ t.seen, ∃ i ∈ t.arrived, ∃ d, t.wire[i]? = some (some k, d)
  accepted : ∀ k ∈ t.accepted, k ∈ t.seen
  last : (t.last.on channel).toNat = place numbers (t.accepted.getLast?.getD 0)
  read : ∀ k ∈ t.read, k ∈ (t.frames.take t.pipe.emitted.length).filterMap (·.1)
  delivered : ∀ k, k ∈ t.delivered ↔ k ∈ t.accepted ∨ k ∈ t.read

variable {peer channel sender : Int32} {t t' : Track}

theorem start_sound (s : State) (c : Connection) : Sound peer channel (start s peer c) where
  counter := ⟨_, AList.lookup_insert _, by simp [Link.counter, start, place]⟩
  stamped := by simp [start]
  bounded := by simp [start]
  unique := by simp [start]
  frames := by simp [start]
  framed := by simp [start]
  seen := by simp [start]
  accepted := by simp [start]
  last := by simp [start, Last.on, place]
  read := by simp [start]
  delivered := by simp [start]

/-- A count that arrived is of a send. -/
theorem Sound.seen_bounds (hs : Sound peer channel t) {k : Nat} (hk : k ∈ t.seen) : 0 < k ∧ k ≤ t.sends := by
  obtain ⟨i, -, d, hw⟩ := hs.seen k hk
  have hmem := List.mem_of_getElem? hw
  refine ⟨?_, hs.bounded k d hmem⟩
  cases hs.stamped _ hmem with
  | counted data hpos h => exact hpos

/-- A count queued for the stream after the first `n` is larger than those. -/
theorem Sound.frames_lt (hs : Sound peer channel t) {j k n : Nat} (hj : j ∈ (t.frames.take n).filterMap (·.1))
    (hk : t.frames[n]?.bind (·.1) = some k) : j < k := by
  obtain ⟨⟨count, data⟩, hn, rfl⟩ := Option.bind_eq_some_iff.1 hk
  have hsplit : t.frames = t.frames.take n ++ (some k, data) :: t.frames.drop (n + 1) := by
    obtain ⟨hlt, hget⟩ := List.getElem?_eq_some_iff.1 hn
    rw [← hget, ← List.drop_eq_getElem_cons hlt, List.take_append_drop]
  have hpair := hs.frames
  rw [hsplit, List.filterMap_append, List.pairwise_append] at hpair
  exact hpair.2.2 j hj k (List.mem_filterMap.2 ⟨(some k, data), by simp, rfl⟩)

/-- The queue of a writer grows by a frame at most. -/
theorem sendOne_queued (s : State) (limits : Limits) (peer ch : Int32) (mode : Mode) (data : Bytes) :
    (s.sendOne limits peer ch mode data).queued = s.queued ∨
      ∃ q, (s.sendOne limits peer ch mode data).queued = s.queued ++ [q] := by
  have hreliable : ∀ (s' : State), s'.queued = s.queued →
      (s'.writeReliable peer ch data).queued = s.queued ∨
        ∃ q, (s'.writeReliable peer ch data).queued = s.queued ++ [q] := by
    intro s' hq
    unfold State.writeReliable
    split
    · exact .inl hq
    · split
      · exact .inr ⟨_, by rw [hq]⟩
      · exact .inr ⟨_, by rw [hq]⟩
  have hdatagram : (s.writeDatagram limits peer ch mode data).queued = s.queued ∨
      ∃ q, (s.writeDatagram limits peer ch mode data).queued = s.queued ++ [q] := by
    unfold State.writeDatagram
    split
    · exact .inl rfl
    · dsimp only
      split
      · refine hreliable _ ?_
        unfold State.warnOversize
        split <;> rfl
      · exact .inl rfl
  cases mode with
  | reliable => exact hreliable s rfl
  | unreliable => exact hdatagram
  | unreliableOrdered => exact hdatagram

/-! ## What each step keeps -/

/-- A new count on the wire. -/
theorem Sound.wired (hs : Sound peer channel t) {state : State} {sends : Nat} {w : Option Nat × Bytes}
    (hcounter : Lane.Counts peer channel state sends) (hle : t.sends ≤ sends) (hw : Lane.Stamped channel w)
    (hk : ∀ k ∈ w.1, t.sends < k ∧ k ≤ sends) :
    Sound peer channel { t with state := state, sends := sends, wire := t.wire ++ [w] } where
  counter := hcounter
  stamped := by
    intro v hv
    rcases List.mem_append.1 hv with hv | hv
    · exact hs.stamped v hv
    · exact List.mem_singleton.1 hv ▸ hw
  bounded := by
    intro k d hv
    rcases List.mem_append.1 hv with hv | hv
    · exact (hs.bounded k d hv).trans hle
    · exact (hk k (by simp [← List.mem_singleton.1 hv])).2
  unique := Lane.unique_concat hs.bounded hs.unique fun k hmem => (hk k hmem).1
  frames := hs.frames
  framed := fun k hmem => (hs.framed k hmem).trans hle
  seen := by
    intro k hseen
    obtain ⟨i, hi, d, hd⟩ := hs.seen k hseen
    exact ⟨i, hi, d, Logs.getElem?_concat.2 (.inl hd)⟩
  accepted := hs.accepted
  last := hs.last
  read := hs.read
  delivered := hs.delivered

/-- Sends that leave no datagram. -/
theorem Sound.counted (hs : Sound peer channel t) {state : State} {sends : Nat}
    (hcounter : Lane.Counts peer channel state sends) (hle : t.sends ≤ sends) :
    Sound peer channel { t with state := state, sends := sends } :=
  { hs with
    counter := hcounter
    bounded := fun k d hmem => (hs.bounded k d hmem).trans hle
    framed := fun k hmem => (hs.framed k hmem).trans hle }

/-- A frame queued for the stream, with a count that is larger than those
before. -/
theorem Sound.queued (hs : Sound peer channel t) {w : Option Nat × Bytes}
    (hk : ∀ k ∈ w.1, k ≤ t.sends ∧ ∀ j ∈ t.frames.filterMap (·.1), j < k) :
    Sound peer channel { t with frames := t.frames ++ [w] } := by
  have hnew : ∀ k, k ∈ [w].filterMap (·.1) ↔ k ∈ w.1 := by
    intro k
    simp [List.mem_filterMap]
  refine { hs with frames := ?_, framed := ?_, read := ?_ }
  · simp only [List.filterMap_append, List.pairwise_append]
    refine ⟨hs.frames, ?_, fun j hj k hmem => (hk k ((hnew k).1 hmem)).2 j hj⟩
    obtain ⟨count, data⟩ := w
    cases count <;> simp
  · intro k hmem
    simp only [List.filterMap_append, List.mem_append] at hmem
    rcases hmem with hmem | hmem
    · exact hs.framed k hmem
    · exact (hk k ((hnew k).1 hmem)).1
  · intro k hmem
    have hpre : (t.frames.take t.pipe.emitted.length).Sublist
        ((t.frames ++ [w]).take t.pipe.emitted.length) := by
      rw [List.take_append]
      exact List.sublist_append_left _ _
    exact (hpre.filterMap _).subset (hs.read k hmem)

theorem send_sound {limits : Limits} {ch : Int32} {mode : Mode} {data : Bytes} (hs : Sound peer channel t)
    (h : step peer channel sender t (.send limits ch mode data) = some t') : Sound peer channel t' := by
  obtain ⟨hcounter, hwire⟩ := Lane.sendOne_counted hs.counter limits ch mode data
  have hle : t.sends ≤ if ch = channel ∧ mode = .unreliableOrdered then t.sends + 1 else t.sends := by
    split <;> omega
  have hcount : ∀ k ∈ (if ch = channel ∧ mode = .unreliableOrdered then some (t.sends + 1) else none : Option Nat),
      t.sends < k ∧ k ≤ if ch = channel ∧ mode = .unreliableOrdered then t.sends + 1 else t.sends := by
    intro k hk
    split at hk
    next hord =>
      simp only [Option.mem_some_iff] at hk
      rw [if_pos hord]
      omega
    · simp at hk
  obtain rfl := Option.some.inj h
  have hsent : Sound peer channel { t with
      state := t.state.sendOne limits peer ch mode data
      sends := if ch = channel ∧ mode = .unreliableOrdered then t.sends + 1 else t.sends
      wire := t.wire ++ ((t.state.sendOne limits peer ch mode data).datagrams.drop t.state.datagrams.length).map
        fun d => (if ch = channel ∧ mode = .unreliableOrdered then some (t.sends + 1) else none, d.2) } := by
    rcases hwire with hnone | ⟨d, hone, hstamped⟩
    · simp only [hnone, List.map_nil, List.append_nil]
      exact hs.counted hcounter hle
    · simp only [hone, List.map_cons, List.map_nil]
      exact hs.wired hcounter hle hstamped hcount
  by_cases hch : ch = channel
  · rw [if_pos hch]
    rcases sendOne_queued t.state limits peer ch mode data with hq | ⟨q, hq⟩
    · rw [hq, List.drop_length, List.map_nil, List.append_nil]
      exact hsent
    · rw [hq, List.drop_left, List.map_cons, List.map_nil]
      refine hsent.queued fun k hk => ⟨(hcount k hk).2, fun j hj => ?_⟩
      exact Nat.lt_of_le_of_lt (hs.framed j hj) (hcount k hk).1
  · rw [if_neg hch, List.map_nil, List.append_nil]
    exact hsent

theorem step_arrive {i : Nat} (h : step peer channel sender t (.arrive i) = some t') :
    ∃ count datagram, t.wire[i]? = some (count, datagram) ∧
      t' = { t with
        last := (readDatagram sender t.last datagram).1
        arrived := i :: t.arrived
        seen := count.toList ++ t.seen
        accepted := t.accepted ++ if (readDatagram sender t.last datagram).2.isSome then count.toList else []
        delivered := t.delivered ++ if (readDatagram sender t.last datagram).2.isSome then count.toList else [] } := by
  simp only [step] at h
  split at h
  · simp at h
  next count datagram hw =>
  exact ⟨count, datagram, hw, (Option.some.inj h).symm⟩

theorem arrive_sound {i : Nat} (hs : Sound peer channel t) (h : step peer channel sender t (.arrive i) = some t') :
    Sound peer channel t' := by
  obtain ⟨count, datagram, hw, rfl⟩ := step_arrive h
  have hnew : ∀ k ∈ if (readDatagram sender t.last datagram).2.isSome then count.toList else [], k ∈ count := by
    intro k hk
    split at hk
    · exact Option.mem_toList.1 hk
    · simp at hk
  refine { hs with
    seen := fun k hk => ?_
    accepted := fun k hk => ?_
    last := Lane.read_last sender hs.last (hs.stamped _ (List.mem_of_getElem? hw))
    delivered := fun k => ?_ }
  · rcases List.mem_append.1 hk with hk | hk
    · rw [Option.mem_toList] at hk
      exact ⟨i, by simp, datagram, by rw [hw, hk]⟩
    · obtain ⟨j, hj, hd⟩ := hs.seen k hk
      exact ⟨j, by simp [hj], hd⟩
  · rcases List.mem_append.1 hk with hk | hk
    · exact List.mem_append_right _ (hs.accepted k hk)
    · exact List.mem_append_left _ (Option.mem_toList.2 (hnew k hk))
  · simp only [List.mem_append, hs.delivered k]
    tauto

/-- A turn of the stream delivers nothing, or the next packet queued. -/
theorem passed_cases (sender : Int32) (t : Track) (act : FramedPipe.Act) :
    t.passed sender act = [] ∨ ∃ k, act = .readFrame ∧ t.passed sender act = [k] ∧
      t.frames[t.pipe.emitted.length]?.bind (·.1) = some k := by
  cases act with
  | readFrame =>
    simp only [passed]
    split
    · cases hframe : t.frames[t.pipe.emitted.length]?.bind (·.1) with
      | none => exact .inl rfl
      | some k => exact .inr ⟨k, trivial, rfl, rfl⟩
    · exact .inl rfl
  | _ => exact .inl rfl

theorem emitted_length {handed : List Bytes} {p p' : Pipe} {act : FramedPipe.Act} (h : p.step channel handed act = some p') :
    p'.emitted.length = if act = .readFrame then p.emitted.length + 1 else p.emitted.length := by
  split
  next hact =>
    subst hact
    simp only [Pipe.step] at h
    split at h
    · obtain ⟨f, -, rfl⟩ := Option.map_eq_some_iff.1 h
      simp
    · simp at h
  next hact => rw [Pipe.emitted_step h hact]

theorem stream_sound {act : FramedPipe.Act} (hs : Sound peer channel t)
    (h : step peer channel sender t (.stream act) = some t') : Sound peer channel t' := by
  obtain ⟨pipe, hp, rfl⟩ := Option.map_eq_some_iff.1 h
  have hlength := emitted_length hp
  refine { hs with read := fun k hk => ?_, delivered := fun k => ?_ }
  · rcases List.mem_append.1 hk with hk | hk
    · have hle : t.pipe.emitted.length ≤ pipe.emitted.length := by
        rw [hlength]
        split <;> omega
      exact ((List.take_sublist_take_left hle).filterMap _).subset (hs.read k hk)
    · rcases passed_cases sender t act with hnone | ⟨k', rfl, hone, hframe⟩
      · simp [hnone] at hk
      obtain rfl : k = k' := by simpa [hone] using hk
      obtain ⟨w, hw, hcount⟩ := Option.bind_eq_some_iff.1 hframe
      have hlt : t.pipe.emitted.length < pipe.emitted.length := by
        rw [hlength, if_pos rfl]
        exact Nat.lt_succ_self _
      refine List.mem_filterMap.2 ⟨w, List.mem_of_getElem? (i := t.pipe.emitted.length) ?_, hcount⟩
      rw [List.getElem?_take, if_pos hlt, hw]
  · simp only [List.mem_append, hs.delivered k]
    tauto

theorem step_sound {a : Act} (hs : Sound peer channel t) (h : step peer channel sender t a = some t') :
    Sound peer channel t' := by
  cases a with
  | send limits ch mode data => exact send_sound hs h
  | arrive i => exact arrive_sound hs h
  | stream act => exact stream_sound hs h

/-! ## The datagram reader -/

/-- A count up to 2³¹ after the last one accepted has a larger number, or one
that is smaller by so much that the counter has started over. -/
theorem newer_not_stale (hs : Sound peer channel t) {k : Nat}
    (hnewer : ∀ j ∈ t.accepted.getLast?, j < k ∧ k ≤ j + 2 ^ 31) :
    ¬ (place numbers k < place numbers (t.accepted.getLast?.getD 0) ∧
      place numbers (t.accepted.getLast?.getD 0) - place numbers k < 2 ^ 31 - 1) := by
  rintro ⟨hlt, hnear⟩
  cases hlast : t.accepted.getLast? with
  | none => simp [hlast, place] at hlt
  | some j =>
    rw [hlast, Option.getD_some] at hlt hnear
    obtain ⟨hjk, hle⟩ := hnewer j hlast
    have hj := (hs.seen_bounds (hs.accepted j (List.mem_of_getLast? hlast))).1
    by_cases hr : round numbers j = round numbers k
    · have := place_sub_place hj hjk.le hr
      omega
    · have := place_across hj hjk.le hr (by unfold numbers; omega)
      unfold numbers at *
      omega

/-- **A newer datagram is delivered.** Whatever was sent and arrived before, an
ordered datagram that was sent up to 2³¹ sends after the last one accepted, or
before any was, is delivered when it arrives. -/
theorem newer_delivered (s : State) (c : Connection) {as : List Act} {i k : Nat} {d : Bytes}
    (h : Machine.run (step peer channel sender) (start s peer c) as = some t)
    (hw : t.wire[i]? = some (some k, d)) (hnewer : ∀ j ∈ t.accepted.getLast?, j < k ∧ k ≤ j + 2 ^ 31) :
    ∃ t', step peer channel sender t (.arrive i) = some t' ∧ t'.accepted = t.accepted ++ [k] ∧
      t'.delivered = t.delivered ++ [k] := by
  have hs : Sound peer channel t := Machine.run_invariant (fun _ _ _ hs h => step_sound hs h) h (start_sound s c)
  refine ⟨_, by simp only [step, hw]; rfl, ?_⟩
  cases hs.stamped _ (List.mem_of_getElem? hw) with
  | counted data hk hplace =>
    rcases read_counted sender data hs.last hk hplace with ⟨hst, -, -⟩ | ⟨-, -, hsome⟩
    · exact absurd hst (newer_not_stale hs hnewer)
    · simp only [hsome, if_true, Option.toList_some, and_self]

/-- The first datagram to arrive, after the counter has moved on by two. -/
theorem newer_delivered_first : ∃ t, Machine.run (step 1 0 1) (start { isHost := false } 1 0)
      (List.replicate 2 (.send (fun _ => some 1200) 0 .unreliableOrdered [7])) = some t ∧
    ∃ t', step 1 0 1 t (.arrive 1) = some t' ∧ t'.accepted = [2] ∧ t'.delivered = [2] := by
  have hrun : (Machine.run (step 1 0 1) (start { isHost := false } 1 0)
      (List.replicate 2 (.send (fun _ => some 1200) 0 .unreliableOrdered [7]))).map
        (fun t => (t.wire[1]?.bind (·.1), t.accepted, t.delivered)) = some (some 2, [], []) := by decide +kernel
  obtain ⟨t, ht, he⟩ := Option.map_eq_some_iff.1 hrun
  simp only [Prod.mk.injEq] at he
  obtain ⟨hwire, haccepted, hdelivered⟩ := he
  obtain ⟨⟨count, d⟩, hw, rfl⟩ := Option.bind_eq_some_iff.1 hwire
  obtain ⟨t', ht', h₁, h₂⟩ := newer_delivered _ _ ht hw (by simp [haccepted])
  exact ⟨t, ht, t', ht', by rw [h₁, haccepted]; rfl, by rw [h₂, hdelivered]; rfl⟩

/-! ## Both readers -/

/-- No later datagram has arrived than the last one accepted. -/
def Topped (t : Track) : Prop := ∀ k ∈ t.seen, k ≤ t.accepted.getLast?.getD 0

theorem Topped.last_le (hs : Sound peer channel t) : t.accepted.getLast?.getD 0 ≤ t.sends := by
  cases hlast : t.accepted.getLast? with
  | none => simp
  | some j => exact (hs.seen_bounds (hs.accepted j (List.mem_of_getLast? hlast))).2

/-- A datagram that arrives for the first time has a count that has not
arrived. -/
theorem Sound.not_seen (hs : Sound peer channel t) {i k : Nat} {d : Bytes} (hw : t.wire[i]? = some (some k, d))
    (hi : i ∉ t.arrived) : ∀ j ∈ t.seen, j ≠ k := by
  rintro j hj rfl
  obtain ⟨i', hi', e, he⟩ := hs.seen j hj
  exact hi (hs.unique i i' j d e hw he ▸ hi')

/-- Before the counter starts over and with no datagram twice, the datagram
reader accepts what is later than all that has arrived. -/
theorem arrive_increasing {i : Nat} (hs : Sound peer channel t) (htop : t.Topped) (hsends : t.sends < 2 ^ 31)
    (hi : i ∉ t.arrived) (h : step peer channel sender t (.arrive i) = some t') :
    t'.Topped ∧ (t'.Increasing ↔ t.Increasing ∧ Ahead sender t (.arrive i)) := by
  obtain ⟨count, datagram, hw, rfl⟩ := step_arrive h
  cases hs.stamped _ (List.mem_of_getElem? hw) with
  | other data hother =>
    simp only [Topped, Increasing, Ahead, hw, Option.toList_none, ite_self, List.append_nil, List.nil_append]
    exact ⟨htop, by simp⟩
  | @counted k sequence data hk hplace =>
    have hne := hs.not_seen hw hi
    have hle := hs.bounded k _ (List.mem_of_getElem? hw)
    have hlast := Topped.last_le hs
    have hplaces : place numbers k = k ∧ place numbers (t.accepted.getLast?.getD 0) = t.accepted.getLast?.getD 0 :=
      ⟨place_of_le (by unfold numbers; omega), place_of_le (by unfold numbers; omega)⟩
    have hahead : Ahead sender t (.arrive i) ↔ (∃ j ∈ t.seen, k < j) ∨ ∀ j ∈ t.read, j < k := by
      simp [Ahead, hw]
    have hread := read_counted sender data hs.last hk hplace
    rw [hplaces.1, hplaces.2] at hread
    rw [hahead]
    rcases hread with ⟨hst, -, hsome⟩ | ⟨hst, -, hsome⟩
    · -- A later datagram was accepted, and this one is dropped.
      simp only [Topped, Increasing, hsome, Bool.false_eq_true, if_false, List.append_nil, Option.toList_some,
        List.singleton_append, List.forall_mem_cons]
      refine ⟨⟨hst.1.le, htop⟩, iff_self_and.2 fun _ => .inl ?_⟩
      cases hlast : t.accepted.getLast? with
      | none => simp [hlast] at hst
      | some j => exact ⟨j, hs.accepted j (List.mem_of_getLast? hlast), by simpa [hlast] using hst.1⟩
    · have hnewer : t.accepted.getLast?.getD 0 ≤ k := by omega
      have hseen : ∀ j ∈ t.seen, j < k := fun j hj =>
        Nat.lt_of_le_of_ne ((htop j hj).trans hnewer) (hne j hj)
      simp only [Topped, Increasing, hsome, if_true, Option.toList_some, List.singleton_append, List.forall_mem_cons,
        List.getLast?_concat, Option.getD_some, Logs.pairwise_concat]
      refine ⟨⟨le_rfl, fun j hj => (hseen j hj).le⟩, and_congr_right fun _ => ⟨fun hall => .inr ?_, ?_⟩⟩
      · exact fun j hj => hall j ((hs.delivered j).2 (.inr hj))
      · rintro (⟨j, hj, hlt⟩ | hall) j' hj'
        · exact absurd (hseen j hj) (Nat.lt_asymm hlt)
        · rcases (hs.delivered j').1 hj' with hmem | hmem
          · exact hseen j' (hs.accepted j' hmem)
          · exact hall j' hmem

/-- What is read off the stream is later than what was read off it before. -/
theorem stream_increasing {act : FramedPipe.Act} (hs : Sound peer channel t) (htop : t.Topped)
    (h : step peer channel sender t (.stream act) = some t') :
    t'.Increasing ↔ t.Increasing ∧ Ahead sender t (.stream act) := by
  obtain ⟨pipe, hp, rfl⟩ := Option.map_eq_some_iff.1 h
  rcases passed_cases sender t act with hpassed | ⟨k, rfl, hpassed, hframe⟩
  · simp [Increasing, Ahead, hpassed]
  · simp only [Increasing, Ahead, hpassed, Logs.pairwise_concat, List.mem_singleton, forall_eq]
    refine and_congr_right fun _ => ⟨fun hall j hj => ?_, fun hall j hj => ?_⟩
    · -- The last one accepted is no earlier than any that arrived.
      cases hlast : t.accepted.getLast? with
      | none =>
        have := htop j hj
        have := (hs.seen_bounds hj).1
        simp only [hlast, Option.getD_none] at *
        omega
      | some a =>
        have ha := hall a ((hs.delivered a).2 (.inl (List.mem_of_getLast? hlast)))
        have := htop j hj
        rw [hlast, Option.getD_some] at this
        omega
    · rcases (hs.delivered j).1 hj with hmem | hmem
      · exact hall j (hs.accepted j hmem)
      · exact hs.frames_lt (hs.read j hmem) hframe

/-- **Order on two paths.** With fewer than 2³¹ ordered sends, and datagrams
lost, delayed and reordered but none arriving twice, what is delivered is in
increasing order of sending exactly when every arrival meets the condition. -/
theorem in_order_iff (s : State) (c : Connection) {as : List Act}
    (h : Machine.run (step peer channel sender) (start s peer c) as = some t) (hsends : t.sends < 2 ^ 31)
    (hnodup : t.arrived.Nodup) :
    t.Increasing ↔ Machine.Along (step peer channel sender) (Ahead sender) (start s peer c) as := by
  refine ((Machine.run_trace (I := fun as t => Sound peer channel t ∧ (t.sends < 2 ^ 31 → t.arrived.Nodup →
    t.Topped ∧ (t.Increasing ↔ Machine.Along (step peer channel sender) (Ahead sender) (start s peer c) as)))
    ⟨start_sound s c, fun _ _ => ⟨by simp [start, Topped], by simp [start, Increasing, Machine.Along]⟩⟩ ?_ h).2
      hsends hnodup).2
  rintro as t a t' hrun ⟨hs, hiff⟩ hstep
  refine ⟨step_sound hs hstep, fun hsends hnodup => ?_⟩
  rw [Machine.along_append hrun]
  simp only [Machine.Along, implies_true, and_true]
  cases a with
  | send limits ch mode data =>
    obtain rfl := Option.some.inj hstep
    have hle : t.sends ≤ if ch = channel ∧ mode = .unreliableOrdered then t.sends + 1 else t.sends := by
      split <;> omega
    obtain ⟨htop, hinc⟩ := hiff (Nat.lt_of_le_of_lt hle hsends) hnodup
    exact ⟨htop, hinc.trans (by simp [Ahead])⟩
  | arrive i =>
    obtain ⟨count, datagram, -, rfl⟩ := step_arrive hstep
    obtain ⟨hi, hnodup⟩ := List.nodup_cons.1 hnodup
    obtain ⟨htop, hinc⟩ := hiff hsends hnodup
    rw [← hinc]
    exact arrive_increasing hs htop hsends hi hstep
  | stream act =>
    have hinc' := fun htop => stream_increasing hs htop hstep
    obtain ⟨pipe, -, rfl⟩ := Option.map_eq_some_iff.1 hstep
    obtain ⟨htop, hinc⟩ := hiff hsends hnodup
    rw [← hinc]
    exact ⟨htop, hinc' htop⟩

/-- A payload too long for a datagram, one that fits, and then what arrives:
the stream first. -/
theorem in_order_iff_stream_first : ∃ t, Machine.run (step 1 0 1) (start { isHost := false } 1 0)
      [.send (fun _ => some 9) 0 .unreliableOrdered [1, 2, 3], .send (fun _ => some 9) 0 .unreliableOrdered [7],
        .stream .open, .stream (.write 4), .stream .take, .stream (.write 7), .stream (.carry 11), .stream .readTag,
        .stream .readFrame, .arrive 0] = some t ∧ t.delivered = [1, 2] ∧
    (t.Increasing ↔ Machine.Along (step 1 0 1) (Ahead 1) (start { isHost := false } 1 0)
      [.send (fun _ => some 9) 0 .unreliableOrdered [1, 2, 3], .send (fun _ => some 9) 0 .unreliableOrdered [7],
        .stream .open, .stream (.write 4), .stream .take, .stream (.write 7), .stream (.carry 11), .stream .readTag,
        .stream .readFrame, .arrive 0]) := by
  have hrun : (Machine.run (step 1 0 1) (start { isHost := false } 1 0)
      [.send (fun _ => some 9) 0 .unreliableOrdered [1, 2, 3], .send (fun _ => some 9) 0 .unreliableOrdered [7],
        .stream .open, .stream (.write 4), .stream .take, .stream (.write 7), .stream (.carry 11), .stream .readTag,
        .stream .readFrame, .arrive 0]).map (fun t => (t.delivered, t.sends, t.arrived)) = some ([1, 2], 2, [0]) := by
    decide +kernel
  obtain ⟨t, ht, he⟩ := Option.map_eq_some_iff.1 hrun
  simp only [Prod.mk.injEq] at he
  exact ⟨t, ht, he.1, in_order_iff _ _ ht (by rw [he.2.1]; decide) (by rw [he.2.2]; decide)⟩

/-- **Overtaken.** The same two sends, and the datagram arrives while the
stream is still under way. -/
theorem overtaken : ∃ t, Machine.run (step 1 0 1) (start { isHost := false } 1 0)
      [.send (fun _ => some 9) 0 .unreliableOrdered [1, 2, 3], .send (fun _ => some 9) 0 .unreliableOrdered [7],
        .arrive 0, .stream .open, .stream (.write 4), .stream .take, .stream (.write 7), .stream (.carry 11),
        .stream .readTag, .stream .readFrame] = some t ∧
    t.sends < 2 ^ 31 ∧ t.arrived.Nodup ∧ t.delivered = [2, 1] ∧ ¬ t.Increasing := by
  have hrun : (Machine.run (step 1 0 1) (start { isHost := false } 1 0)
      [.send (fun _ => some 9) 0 .unreliableOrdered [1, 2, 3], .send (fun _ => some 9) 0 .unreliableOrdered [7],
        .arrive 0, .stream .open, .stream (.write 4), .stream .take, .stream (.write 7), .stream (.carry 11),
        .stream .readTag, .stream .readFrame]).map (fun t => (t.delivered, t.sends, t.arrived)) =
      some ([2, 1], 2, [0]) := by decide +kernel
  obtain ⟨t, ht, he⟩ := Option.map_eq_some_iff.1 hrun
  simp only [Prod.mk.injEq] at he
  obtain ⟨hd, hs, ha⟩ := he
  refine ⟨t, ht, by rw [hs]; decide, by rw [ha]; decide, hd, ?_⟩
  rw [Increasing, hd]
  decide

/-! ## What a stream carries -/

/-- As long as every payload fits the 32-bit length of a frame, the frames
read are the first of those queued. -/
theorem emitted_isPre (s : State) (c : Connection) {as : List Act}
    (h : Machine.run (step peer channel sender) (start s peer c) as = some t)
    (hlen : ∀ f ∈ t.frames, f.2.length < 2 ^ 32) : t.pipe.emitted <+: t.frames.map (·.2) := by
  have hsound : FramedPipe.Sound channel (t.frames.map (·.2)) t.pipe := by
    refine Machine.run_invariant (I := fun t => FramedPipe.Sound channel (t.frames.map (·.2)) t.pipe) ?_ h .init
    intro t a t' ht hstep
    cases a with
    | send limits ch mode data =>
      obtain rfl := Option.some.inj hstep
      rw [List.map_append]
      exact ht.hand _
    | arrive i =>
      obtain ⟨count, datagram, -, rfl⟩ := step_arrive hstep
      exact ht
    | stream act =>
      obtain ⟨pipe, hp, rfl⟩ := Option.map_eq_some_iff.1 hstep
      exact ht.step hp
  refine hsound.emitted_isPre fun f hf => ?_
  obtain ⟨w, hw, rfl⟩ := List.mem_map.1 hf
  exact hlen w hw

end Track
end Gdiroh.Session
