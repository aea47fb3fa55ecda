/-
The datagrams of one link on every channel at once, from the calls of
`write_datagram` to the reports of the datagram reader.

A datagram does not say its mode. The reader tells it from the sequence
number, zero being an unreliable one, so the codec alone does not carry the
mode: it takes the counters too, which skip zero as they start over, whatever
is sent on other channels and whichever sends are too big for a datagram.
`Sound` holds the two together, and `datagrams_exact` is what comes of it.

The reader is at the mercy of the other end, so datagrams that no call sent
may reach it in between.
-/
import Gdiroh.Session.Ordered

namespace Gdiroh.Session
open Rounds

/-- A call of `write_datagram`. -/
structure Call where
  channel : Int32
  mode : Mode
  data : Bytes
deriving DecidableEq

/-- A datagram from the wire, as the reader takes it. -/
structure Reading where
  /-- Its place on the wire. -/
  place : Nat
  /-- The reader's `last` at that moment. -/
  last : Last
  /-- What it reports, unless it drops the datagram. -/
  packet : Option Packet

/-- The datagrams of one link, at both ends. -/
structure Traffic where
  /-- The sender. -/
  state : State
  calls : List Call := []
  /-- The datagrams handed to QUIC, each with the place of its call. -/
  wire : List (Nat × Bytes) := []
  /-- What the datagram reader remembers. -/
  last : Last := ∅
  readings : List Reading := []
  /-- The packets reported to the main thread. -/
  packets : List Packet := []

inductive Traffic.Act where
  /-- The sender sends on the link. -/
  | send (limits : Limits) (channel : Int32) (mode : Mode) (data : Bytes)
  /-- The datagram at this place on the wire reaches the reader. -/
  | arrive (place : Nat)
  /-- A datagram that no call sent reaches the reader. -/
  | stray (datagram : Bytes)

/-- The calls after a send. A reliable one does not come to
`write_datagram`. -/
def called (calls : List Call) (channel : Int32) (mode : Mode) (data : Bytes) : List Call :=
  if mode = .reliable then calls else calls ++ [⟨channel, mode, data⟩]

theorem called_grown (calls : List Call) (channel : Int32) (mode : Mode) (data : Bytes) :
    ∃ more, called calls channel mode data = calls ++ more := by
  unfold called
  split
  · exact ⟨[], by simp⟩
  · exact ⟨_, rfl⟩

/-- The ordered calls on a channel. -/
def ordered (calls : List Call) (channel : Int32) : Nat :=
  (calls.filter fun call => call.channel = channel ∧ call.mode = .unreliableOrdered).length

theorem ordered_concat (calls : List Call) (call : Call) (channel : Int32) :
    ordered (calls ++ [call]) channel =
      ordered calls channel + if call.channel = channel ∧ call.mode = .unreliableOrdered then 1 else 0 := by
  unfold ordered
  by_cases h : call.channel = channel ∧ call.mode = .unreliableOrdered <;> simp [h]

/-- A send counts for its own channel, in the ordered mode, and for no
other. -/
theorem ordered_called (calls : List Call) (ch : Int32) (mode : Mode) (data : Bytes) (channel : Int32) :
    ordered (called calls ch mode data) channel =
      ordered calls channel + if ch = channel ∧ mode = .unreliableOrdered then 1 else 0 := by
  unfold called
  split
  next hm => simp [hm]
  next => rw [ordered_concat]

namespace Traffic

/-- A link as `add_link` makes it, and a reader that has read nothing. -/
def start (s : State) (peer : Int32) (c : Connection) : Traffic := { state := s.addLink peer c }

section
variable (peer sender : Int32)

/-- One step on the link to `peer`; `sender` is the sender's id at the
reader's end. Datagrams are lost, reordered and repeated. -/
def step (t : Traffic) : Act → Option Traffic
  | .send limits channel mode data =>
    let state := t.state.sendOne limits peer channel mode data
    let new := state.datagrams.drop t.state.datagrams.length
    some { t with
      state := state
      calls := called t.calls channel mode data
      wire := t.wire ++ new.map fun d => (t.calls.length, d.2) }
  | .arrive place =>
    t.wire[place]?.map fun (_, datagram) =>
      let (last, packet) := readDatagram sender t.last datagram
      { t with
        last := last
        readings := t.readings ++ [⟨place, t.last, packet⟩]
        packets := t.packets ++ packet.toList }
  | .stray datagram =>
    let (last, packet) := readDatagram sender t.last datagram
    some { t with last := last, packets := t.packets ++ packet.toList }

end

/-- A datagram on the wire is that of its call, numbered if the call is an
ordered one: the `k`-th on its channel bears `k`, as the counter runs from 1
to `u32::MAX` and over again. -/
structure Stamped (calls : List Call) (i : Nat) (datagram : Bytes) (call : Call) (sequence : UInt32) : Prop where
  made : calls[i]? = some call
  framed : datagram = frameDatagram call.channel sequence call.data
  number : call.mode = .unreliable ∧ sequence = 0 ∨
    call.mode = .unreliableOrdered ∧ sequence ≠ 0 ∧
      sequence.toNat = (ordered (calls.take (i + 1)) call.channel - 1) % (2 ^ 32 - 1) + 1

/-- A reading reports the call, or drops an ordered datagram as stale. -/
def Reading.Exact (sender : Int32) (call : Call) (sequence : UInt32) (r : Reading) : Prop :=
  r.packet = some ⟨sender, call.channel, call.mode, call.data⟩ ∨
    r.packet = none ∧ call.mode = .unreliableOrdered ∧ stale (r.last.on call.channel) sequence = true

/-! ## Calls and their datagrams -/

variable {peer sender : Int32} {calls : List Call} {i : Nat} {datagram : Bytes} {call : Call} {sequence : UInt32}

theorem Stamped.grown (h : Stamped calls i datagram call sequence) (more : List Call) :
    Stamped (calls ++ more) i datagram call sequence := by
  obtain ⟨hi, -⟩ := List.getElem?_eq_some_iff.1 h.made
  refine ⟨by rw [List.getElem?_append_left hi, h.made], h.framed, ?_⟩
  rw [List.take_append_of_le_length (by omega)]
  exact h.number

/-- The datagram says what its call did: the reader's answer, whatever it
remembers. -/
theorem Stamped.read (h : Stamped calls i datagram call sequence) (sender : Int32) (last : Last) (place : Nat) :
    Reading.Exact sender call sequence ⟨place, last, (readDatagram sender last datagram).2⟩ := by
  rw [Reading.Exact, h.framed, readDatagram_frameDatagram]
  rcases h.number with ⟨hmode, h0⟩ | ⟨hmode, hne, -⟩
  · rw [if_pos h0, hmode]
    exact .inl rfl
  · rw [if_neg hne]
    split
    next hst => exact .inr ⟨rfl, hmode, hst⟩
    next => exact .inl (by rw [hmode])

/-- What is shorter than the header is passed over. -/
theorem readDatagram_short (sender : Int32) (last : Last) (h : datagram.length < datagramHeader) :
    readDatagram sender last datagram = (last, none) := by
  rw [readDatagram, if_pos h]

/-! ## What holds of a link's datagrams -/

/-- The counters are at the places of the ordered calls, on every channel. -/
def Counting (peer : Int32) (s : State) (calls : List Call) : Prop :=
  ∃ link, s.links.lookup peer = some link ∧
    ∀ channel, (link.counter channel).toNat = place numbers (ordered calls channel)

structure Sound (peer sender : Int32) (t : Traffic) : Prop where
  counting : Counting peer t.state t.calls
  wire : ∀ w ∈ t.wire, ∃ call sequence, Stamped t.calls w.1 w.2 call sequence
  readings : ∀ r ∈ t.readings, ∃ i datagram call sequence, t.wire[r.place]? = some (i, datagram) ∧
    Stamped t.calls i datagram call sequence ∧ Reading.Exact sender call sequence r

theorem start_sound (s : State) (c : Connection) : Sound peer sender (start s peer c) := by
  refine ⟨⟨⟨c, ∅, ∅, ∅⟩, AList.lookup_insert _, fun channel => ?_⟩, by simp [start], by simp [start]⟩
  simp [Link.counter, start, ordered, place]

theorem sendOne_counting {s : State} (h : Counting peer s calls) (limits : Limits) (ch : Int32) (mode : Mode)
    (data : Bytes) : Counting peer (s.sendOne limits peer ch mode data) (called calls ch mode data) := by
  obtain ⟨link, hl, hcounter⟩ := h
  obtain ⟨link', hl', hsequences⟩ := State.sendOne_sequences hl limits ch mode data
  refine ⟨link', hl', fun channel => ?_⟩
  rw [Link.counter, hsequences, ← Link.counter, Link.count_counter, ordered_called]
  split
  · exact nextSequence_place (hcounter channel)
  · exact hcounter channel

/-- **The datagram of a send**, if one comes of it, is its call's, with the
next number of its channel or with none. -/
theorem sendOne_stamped {s : State} (h : Counting peer s calls) (limits : Limits) (ch : Int32) (mode : Mode)
    (data : Bytes) :
    ∀ d ∈ (s.sendOne limits peer ch mode data).datagrams.drop s.datagrams.length,
      ∃ sequence, Stamped (called calls ch mode data) calls.length d.2 ⟨ch, mode, data⟩ sequence := by
  obtain ⟨link, hl, hcounter⟩ := h
  intro d hd
  have hmode : mode ≠ .reliable := by
    rintro rfl
    simp [State.sendOne, State.writeReliable_datagrams] at hd
  rcases State.sendOne_datagrams hl limits ch mode data with hnone | hone
  · simp [hnone] at hd
  rw [hone, List.drop_left, List.mem_singleton] at hd
  subst hd
  have hcalled : called calls ch mode data = calls ++ [⟨ch, mode, data⟩] := if_neg hmode
  refine ⟨link.sequence ch mode, by rw [hcalled, List.getElem?_concat_length], rfl, ?_⟩
  cases mode with
  | reliable => exact absurd rfl hmode
  | unreliable => exact .inl ⟨rfl, rfl⟩
  | unreliableOrdered =>
    have hnumber : (link.sequence ch .unreliableOrdered).toNat = place numbers (ordered calls ch + 1) :=
      nextSequence_place (hcounter ch)
    refine .inr ⟨rfl, ?_, ?_⟩
    · intro hzero
      have hpos := place_pos (m := numbers) (Nat.succ_pos (ordered calls ch))
      rw [← hnumber, hzero] at hpos
      exact absurd hpos (by decide)
    · rw [hnumber, List.take_of_length_le (by rw [hcalled]; simp), ordered_called, if_pos ⟨rfl, rfl⟩]
      simp [place, numbers]

variable {t t' : Traffic}

theorem send_sound {limits : Limits} {channel : Int32} {mode : Mode} {data : Bytes} (hs : Sound peer sender t)
    (h : step peer sender t (.send limits channel mode data) = some t') : Sound peer sender t' := by
  obtain ⟨more, hmore⟩ := called_grown t.calls channel mode data
  obtain rfl := Option.some.inj h
  refine ⟨sendOne_counting hs.counting limits channel mode data, fun w hw => ?_, fun r hr => ?_⟩
  · rcases List.mem_append.1 hw with hw | hw
    · obtain ⟨call, sequence, hst⟩ := hs.wire w hw
      exact ⟨call, sequence, by rw [hmore]; exact hst.grown more⟩
    · obtain ⟨d, hd, rfl⟩ := List.mem_map.1 hw
      obtain ⟨sequence, hst⟩ := sendOne_stamped hs.counting limits channel mode data d hd
      exact ⟨_, sequence, hst⟩
  · obtain ⟨i, datagram, call, sequence, hi, hst, hexact⟩ := hs.readings r hr
    have hlt := (List.getElem?_eq_some_iff.1 hi).1
    exact ⟨i, datagram, call, sequence, (List.getElem?_append_left hlt).trans hi, by rw [hmore]; exact hst.grown more,
      hexact⟩

theorem arrive_sound {place : Nat} (hs : Sound peer sender t) (h : step peer sender t (.arrive place) = some t') :
    Sound peer sender t' := by
  obtain ⟨⟨i, datagram⟩, hw, rfl⟩ := Option.map_eq_some_iff.1 h
  refine ⟨hs.counting, hs.wire, fun r hr => ?_⟩
  rcases List.mem_append.1 hr with hr | hr
  · exact hs.readings r hr
  · obtain rfl := List.mem_singleton.1 hr
    obtain ⟨call, sequence, hst⟩ := hs.wire _ (List.mem_of_getElem? hw)
    exact ⟨i, datagram, call, sequence, hw, hst, hst.read sender t.last place⟩

theorem step_sound {a : Act} (hs : Sound peer sender t) (h : step peer sender t a = some t') :
    Sound peer sender t' := by
  cases a with
  | send limits channel mode data => exact send_sound hs h
  | arrive place => exact arrive_sound hs h
  | stray datagram =>
    obtain rfl := Option.some.inj h
    exact ⟨hs.counting, hs.wire, hs.readings⟩

/-- **Datagrams are read as they were sent.** Every datagram on the wire is
that of a call, with the number of the call on its channel or with zero. When
it reaches the reader it is reported with the call's channel, mode and
payload, unless it is an ordered one and stale. A datagram shorter than the
header changes nothing. -/
theorem datagrams_exact (s : State) (c : Connection) {as : List Act}
    (h : Machine.run (step peer sender) (start s peer c) as = some t) :
    (∀ i datagram, (i, datagram) ∈ t.wire → ∃ call sequence, Stamped t.calls i datagram call sequence) ∧
    (∀ r ∈ t.readings, ∃ i datagram call sequence, t.wire[r.place]? = some (i, datagram) ∧
      Stamped t.calls i datagram call sequence ∧ Reading.Exact sender call sequence r) ∧
    ∀ datagram : Bytes, datagram.length < datagramHeader → step peer sender t (.stray datagram) = some t := by
  have hs : Sound peer sender t :=
    Machine.run_invariant (fun _ _ _ hs hstep => step_sound hs hstep) h (start_sound s c)
  refine ⟨fun i datagram hw => hs.wire _ hw, hs.readings, fun datagram hshort => ?_⟩
  rw [step, readDatagram_short sender t.last hshort]
  simp

/-- Two channels, one send too big for a datagram, a repeated arrival, a late
one and a stray. -/
theorem datagrams_exact_mixed : ∃ t, Machine.run (step 1 7) (start { isHost := false } 1 0)
      [.send (fun _ => some 1200) 0 .unreliableOrdered [1], .send (fun _ => some 4) 0 .unreliableOrdered [2],
        .send (fun _ => some 1200) 5 .unreliable [3], .send (fun _ => some 1200) 0 .unreliableOrdered [4],
        .arrive 1, .arrive 1, .arrive 2, .stray [9], .arrive 0] = some t ∧
    t.packets = [⟨7, 5, .unreliable, [3]⟩, ⟨7, 5, .unreliable, [3]⟩, ⟨7, 0, .unreliableOrdered, [4]⟩] ∧
    ∀ i datagram, (i, datagram) ∈ t.wire → ∃ call sequence, Stamped t.calls i datagram call sequence := by
  have hrun : (Machine.run (step 1 7) (start { isHost := false } 1 0)
      [.send (fun _ => some 1200) 0 .unreliableOrdered [1], .send (fun _ => some 4) 0 .unreliableOrdered [2],
        .send (fun _ => some 1200) 5 .unreliable [3], .send (fun _ => some 1200) 0 .unreliableOrdered [4],
        .arrive 1, .arrive 1, .arrive 2, .stray [9], .arrive 0]).map (·.packets) =
      some [⟨7, 5, .unreliable, [3]⟩, ⟨7, 5, .unreliable, [3]⟩, ⟨7, 0, .unreliableOrdered, [4]⟩] := by
    decide +kernel
  obtain ⟨t, ht, hp⟩ := Option.map_eq_some_iff.1 hrun
  exact ⟨t, ht, hp, (datagrams_exact _ _ ht).1⟩

end Traffic
end Gdiroh.Session
