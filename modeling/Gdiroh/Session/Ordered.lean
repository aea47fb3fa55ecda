/-
Ordered datagrams on one link and channel, from the sender's counter to the
reader's `last`.

`write_datagram` numbers the ordered datagrams of a channel from 1 to
`u32::MAX` and over again. The reader drops a number smaller than the last
one it delivered, unless it is so much smaller that the counter must have
started over in between. A number larger than the last one it always takes
for a newer one, and that is where it goes wrong: just after the counter has
started over, a late datagram from before has the larger number
(`late_across_the_end`). `increasing_iff` says that this is all that can go
wrong.
-/
import Gdiroh.Lib.Logs
import Gdiroh.Lib.Machine
import Gdiroh.Lib.Rounds
import Gdiroh.Session.Readers
import Gdiroh.Session.StateFacts

namespace Gdiroh.Session
open Rounds

/-- The numbers a counter runs through before it starts over. -/
def numbers : Nat := 2 ^ 32 - 1

/-- How far behind a later one a datagram still arrives, in ordered sends on
its channel. -/
def reordering : Nat := 2 ^ 30

/-- The ordered datagrams of one link and channel, at both ends. -/
structure Lane where
  /-- The sender. -/
  state : State
  /-- The ordered sends on the channel so far. -/
  sends : Nat := 0
  /-- The datagrams handed to QUIC, each ordered one of the channel with the
  count of its send. -/
  wire : List (Option Nat × Bytes) := []
  /-- What the datagram reader remembers. -/
  last : Last := ∅
  /-- The places on the wire of the datagrams that arrived. -/
  arrived : List Nat := []
  /-- The counts that arrived. -/
  seen : List Nat := []
  /-- The counts that the reader delivered, oldest first. -/
  delivered : List Nat := []

inductive Lane.Act where
  /-- The sender sends on the link. -/
  | send (limits : Limits) (channel : Int32) (mode : Mode) (data : Bytes)
  /-- The datagram at this place on the wire arrives. -/
  | arrive (i : Nat)

namespace Lane

/-- A link as `add_link` makes it, and a reader that has read nothing. -/
def start (s : State) (peer : Int32) (c : Connection) : Lane := { state := s.addLink peer c }

section
variable (peer channel sender : Int32)

/-- One step on the link to `peer`, for the ordered datagrams of `channel`;
`sender` is the sender's id at the reader's end.

Datagrams are lost, which is never arriving, and reordered. None arrives
twice, and none after one sent more than `reordering` sends later. -/
def step (l : Lane) : Act → Option Lane
  | .send limits ch mode data =>
    let state := l.state.sendOne limits peer ch mode data
    let sends := if ch = channel ∧ mode = .unreliableOrdered then l.sends + 1 else l.sends
    let count := if ch = channel ∧ mode = .unreliableOrdered then some (l.sends + 1) else none
    let new := state.datagrams.drop l.state.datagrams.length
    some { l with state := state, sends := sends, wire := l.wire ++ new.map fun d => (count, d.2) }
  | .arrive i =>
    match l.wire[i]? with
    | none => none
    | some (count, datagram) =>
      if i ∈ l.arrived ∨ ∃ k ∈ count, ∃ j ∈ l.seen, k + reordering < j then none
      else
        let (last, packet) := readDatagram sender l.last datagram
        some { l with
          last := last
          arrived := i :: l.arrived
          seen := count.toList ++ l.seen
          delivered := l.delivered ++ if packet.isSome then count.toList else [] }

/-- The datagram that arrives was not sent before the one delivered last
with the counter starting over in between. -/
def Met (l : Lane) : Act → Prop
  | .send .. => True
  | .arrive i =>
    ∀ k ∈ l.wire[i]?.bind (·.1), ∀ j ∈ l.delivered.getLast?, k < j → round numbers k = round numbers j

/-- What the reader delivers on the channel is in the order it was sent. -/
def Increasing (l : Lane) : Prop := l.delivered.Pairwise (· < ·)

end
end Lane

/-! ## The counter -/

namespace State

theorem writeReliable_sequences {s : State} {peer : Int32} {link : Link} (hl : s.links.lookup peer = some link)
    (channel : Int32) (data : Bytes) : ∃ link', (s.writeReliable peer channel data).links.lookup peer = some link' ∧
      link'.sequences = link.sequences := by
  rw [writeReliable, hl]
  dsimp only
  split
  · exact ⟨link, hl, rfl⟩
  · exact ⟨_, AList.lookup_insert _, rfl⟩

theorem warnOversize_sequences (s : State) (peer channel : Int32) (data : Bytes) (limit : Nat) (link : Link) :
    ∃ link', (s.warnOversize peer channel data limit link).links.lookup peer = some link' ∧
      link'.sequences = link.sequences := by
  unfold warnOversize
  split
  · exact ⟨_, AList.lookup_insert _, rfl⟩
  · exact ⟨_, AList.lookup_insert _, rfl⟩

/-- A send moves the counter of its own channel on, in the ordered mode,
whether or not a datagram comes of it. -/
theorem sendOne_sequences {s : State} {peer : Int32} {link : Link} (hl : s.links.lookup peer = some link)
    (limits : Limits) (channel : Int32) (mode : Mode) (data : Bytes) :
    ∃ link', (s.sendOne limits peer channel mode data).links.lookup peer = some link' ∧
      link'.sequences = (link.count channel mode).sequences := by
  have hdatagram : ∃ link', (s.writeDatagram limits peer channel mode data).links.lookup peer = some link' ∧
      link'.sequences = (link.count channel mode).sequences := by
    rw [writeDatagram, hl]
    dsimp only
    split
    · obtain ⟨mid, hmid, he⟩ := warnOversize_sequences s peer channel data ((limits link.connection).getD 0)
        (link.count channel mode)
      obtain ⟨link', hl', he'⟩ := writeReliable_sequences hmid channel data
      exact ⟨link', hl', he'.trans he⟩
    · exact ⟨_, AList.lookup_insert _, rfl⟩
  cases mode with
  | reliable => exact writeReliable_sequences hl channel data
  | unreliable => exact hdatagram
  | unreliableOrdered => exact hdatagram

/-- The datagram of a send, when there is one. -/
theorem sendOne_datagrams {s : State} {peer : Int32} {link : Link} (hl : s.links.lookup peer = some link)
    (limits : Limits) (channel : Int32) (mode : Mode) (data : Bytes) :
    (s.sendOne limits peer channel mode data).datagrams = s.datagrams ∨
      (s.sendOne limits peer channel mode data).datagrams =
        s.datagrams ++ [(link.connection, frameDatagram channel (link.sequence channel mode) data)] := by
  have hdatagram : (s.writeDatagram limits peer channel mode data).datagrams = s.datagrams ∨
      (s.writeDatagram limits peer channel mode data).datagrams =
        s.datagrams ++ [(link.connection, frameDatagram channel (link.sequence channel mode) data)] := by
    rw [writeDatagram, hl]
    dsimp only
    split
    · left
      rw [writeReliable_datagrams, warnOversize]
      split <;> rfl
    · exact .inr rfl
  cases mode with
  | reliable => exact .inl (writeReliable_datagrams ..)
  | unreliable => exact hdatagram
  | unreliableOrdered => exact hdatagram

end State

/-- The last number sent on a channel. -/
def Link.counter (link : Link) (channel : Int32) : UInt32 := (link.sequences.lookup channel).getD 0

theorem Link.count_counter (link : Link) (ch channel : Int32) (mode : Mode) :
    (link.count ch mode).counter channel =
      if ch = channel ∧ mode = .unreliableOrdered then link.nextSequence channel else link.counter channel := by
  unfold Link.count
  by_cases hm : mode = .unreliableOrdered
  · by_cases hc : ch = channel
    · subst hc
      simp [hm, Link.counter]
    · simp [hm, hc, Link.counter, AList.lookup_insert_ne (Ne.symm hc)]
  · simp [hm]

theorem nextSequence_toNat (link : Link) (channel : Int32) :
    (link.nextSequence channel).toNat =
      if (link.counter channel).toNat = numbers then 1 else (link.counter channel).toNat + 1 := by
  unfold Link.nextSequence Link.counter numbers
  generalize (link.sequences.lookup channel).getD 0 = n
  have hn := n.toNat_lt
  have hnext : (n + 1).toNat = (n.toNat + 1) % 2 ^ 32 := by rw [UInt32.toNat_add, UInt32.toNat_one]
  rw [UInt32.max_def]
  split
  · next hle =>
    rw [UInt32.le_iff_toNat_le, hnext, UInt32.toNat_one] at hle
    rw [UInt32.toNat_one]
    split <;> omega
  · next hlt =>
    rw [UInt32.le_iff_toNat_le, hnext, UInt32.toNat_one] at hlt
    rw [hnext]
    split <;> omega

/-- The counter after the `k`-th ordered send is at the place of `k`. -/
theorem nextSequence_place {link : Link} {channel : Int32} {k : Nat}
    (h : (link.counter channel).toNat = place numbers k) :
    (link.nextSequence channel).toNat = place numbers (k + 1) := by
  rw [nextSequence_toNat, h, place_succ (by decide)]

/-- The reader's test on the numbers themselves. -/
theorem stale_iff {seen sequence : UInt32} :
    stale seen sequence = true ↔ sequence.toNat < seen.toNat ∧ seen.toNat - sequence.toNat < 2 ^ 31 - 1 := by
  have hhalf : (0xFFFFFFFF / 2 : UInt32).toNat = 2 ^ 31 - 1 := by decide
  have h₁ := seen.toNat_lt
  have h₂ := sequence.toNat_lt
  simp only [stale, Bool.and_eq_true, decide_eq_true_eq, UInt32.lt_iff_toNat_lt, UInt32.toNat_sub, hhalf]
  omega

/-- The last number delivered on a channel. -/
def Last.on (last : Last) (channel : Int32) : UInt32 := (last.lookup channel).getD 0

/-- A numbered datagram is dropped, or delivered and remembered. -/
theorem readDatagram_numbered (sender : Int32) (last : Last) (channel : Int32) {sequence : UInt32}
    (h : sequence ≠ 0) (data : Bytes) :
    let read := readDatagram sender last (frameDatagram channel sequence data)
    stale (last.on channel) sequence = true ∧ read.1.on channel = last.on channel ∧ read.2.isSome = false ∨
      stale (last.on channel) sequence = false ∧ read.1.on channel = sequence ∧ read.2.isSome = true := by
  simp only [readDatagram_frameDatagram, if_neg h]
  cases hst : stale (last.on channel) sequence with
  | true =>
    rw [Last.on] at hst
    simp [hst, Last.on]
  | false =>
    rw [Last.on] at hst
    simp [hst, Last.on]

/-- Any other datagram leaves the number alone. -/
theorem readDatagram_other (sender : Int32) (last : Last) {ch channel : Int32} {sequence : UInt32}
    (h : ch ≠ channel ∨ sequence = 0) (data : Bytes) :
    (readDatagram sender last (frameDatagram ch sequence data)).1.on channel = last.on channel := by
  rw [readDatagram_frameDatagram]
  split
  · rfl
  next hne =>
  have hch : channel ≠ ch := fun he => (h.resolve_right hne) he.symm
  split
  · simp [Last.on, AList.lookup_insert_ne hch]
  · simp [Last.on, AList.lookup_insert_ne hch]

/-- What the reader makes of a counted datagram, by the places of its count
and of the last one delivered. -/
theorem read_counted (sender : Int32) {last : Last} {channel : Int32} {j k : Nat} {sequence : UInt32} (data : Bytes)
    (hlast : (last.on channel).toNat = place numbers j) (hk : 0 < k) (h : sequence.toNat = place numbers k) :
    let read := readDatagram sender last (frameDatagram channel sequence data)
    (place numbers k < place numbers j ∧ place numbers j - place numbers k < 2 ^ 31 - 1) ∧
        (read.1.on channel).toNat = place numbers j ∧ read.2.isSome = false ∨
      ¬ (place numbers k < place numbers j ∧ place numbers j - place numbers k < 2 ^ 31 - 1) ∧
        (read.1.on channel).toNat = place numbers k ∧ read.2.isSome = true := by
  have hne : sequence ≠ 0 := by
    rintro rfl
    have := place_pos (m := numbers) hk
    simp [← h] at this
  rcases readDatagram_numbered sender last channel hne data with ⟨hst, hon, hsome⟩ | ⟨hst, hon, hsome⟩
  · rw [stale_iff, hlast, h] at hst
    exact .inl ⟨hst, by rw [hon, hlast], hsome⟩
  · rw [← Bool.not_eq_true, stale_iff, hlast, h] at hst
    exact .inr ⟨hst, by rw [hon, h], hsome⟩

/-! ## What holds of a lane -/

namespace Lane

/-- A datagram on the wire bears its send's number, or is not an ordered one
of the channel. -/
inductive Stamped (channel : Int32) : Option Nat × Bytes → Prop
  | counted {k : Nat} {sequence : UInt32} (data : Bytes) (hk : 0 < k) (h : sequence.toNat = place numbers k) :
      Stamped channel (some k, frameDatagram channel sequence data)
  | other {ch : Int32} {sequence : UInt32} (data : Bytes) (h : ch ≠ channel ∨ sequence = 0) :
      Stamped channel (none, frameDatagram ch sequence data)

/-- The reader's number stays at the place of the last count accepted. -/
theorem read_last (sender : Int32) {last : Last} {channel : Int32} {accepted : List Nat} {count : Option Nat}
    {datagram : Bytes} (hlast : (last.on channel).toNat = place numbers (accepted.getLast?.getD 0))
    (hst : Stamped channel (count, datagram)) :
    ((readDatagram sender last datagram).1.on channel).toNat = place numbers ((accepted ++
      if (readDatagram sender last datagram).2.isSome then count.toList else []).getLast?.getD 0) := by
  cases hst with
  | counted data hk hplace =>
    rcases read_counted sender data hlast hk hplace with ⟨-, hon, hsome⟩ | ⟨-, hon, hsome⟩
    · rw [hon, hsome, if_neg Bool.false_ne_true, List.append_nil]
    · rw [hon, hsome, if_pos rfl, Option.toList_some, List.getLast?_concat, Option.getD_some]
  | other data hother =>
    rw [readDatagram_other sender last hother data, Option.toList_none, ite_self, List.append_nil, hlast]

/-- The counter of the link to `peer` is at the place of the `k`-th send. -/
def Counts (peer channel : Int32) (s : State) (k : Nat) : Prop :=
  ∃ link, s.links.lookup peer = some link ∧ (link.counter channel).toNat = place numbers k

/-- **A send, counted.** The counter moves on with an ordered send on the
channel, and the datagram that comes of a send, if one does, bears its number. -/
theorem sendOne_counted {peer channel : Int32} {s : State} {k : Nat} (h : Counts peer channel s k) (limits : Limits)
    (ch : Int32) (mode : Mode) (data : Bytes) :
    Counts peer channel (s.sendOne limits peer ch mode data)
        (if ch = channel ∧ mode = .unreliableOrdered then k + 1 else k) ∧
      ((s.sendOne limits peer ch mode data).datagrams.drop s.datagrams.length = [] ∨
        ∃ d, (s.sendOne limits peer ch mode data).datagrams.drop s.datagrams.length = [d] ∧
          Stamped channel (if ch = channel ∧ mode = .unreliableOrdered then some (k + 1) else none, d.2)) := by
  obtain ⟨link, hl, hcounter⟩ := h
  obtain ⟨link', hl', hsequences⟩ := State.sendOne_sequences hl limits ch mode data
  refine ⟨⟨link', hl', ?_⟩, ?_⟩
  · rw [Link.counter, hsequences, ← Link.counter, Link.count_counter]
    split
    · exact nextSequence_place hcounter
    · exact hcounter
  · rcases State.sendOne_datagrams hl limits ch mode data with hd | hd
    · exact .inl (by simp [hd])
    · refine .inr ⟨_, by rw [hd, List.drop_left], ?_⟩
      by_cases hord : ch = channel ∧ mode = .unreliableOrdered
      · rw [if_pos hord]
        obtain ⟨rfl, rfl⟩ := hord
        exact .counted data (by simp) (nextSequence_place hcounter)
      · rw [if_neg hord]
        refine .other data ?_
        by_cases hch : ch = channel
        · exact .inr (if_neg fun hm => hord ⟨hch, hm⟩)
        · exact .inl hch

/-- The sender's counter and the reader's number are at the places of the
last send and of the last delivery. -/
structure Sound (peer channel : Int32) (l : Lane) : Prop where
  counter : ∃ link, l.state.links.lookup peer = some link ∧ (link.counter channel).toNat = place numbers l.sends
  stamped : ∀ w ∈ l.wire, Stamped channel w
  bounded : ∀ k d, (some k, d) ∈ l.wire → k ≤ l.sends
  unique : ∀ (i j k : Nat) (d e : Bytes), l.wire[i]? = some (some k, d) → l.wire[j]? = some (some k, e) → i = j
  seen : ∀ k ∈ l.seen, ∃ i ∈ l.arrived, ∃ d, l.wire[i]? = some (some k, d)
  delivered : ∀ k ∈ l.delivered, k ∈ l.seen
  last : (l.last.on channel).toNat = place numbers (l.delivered.getLast?.getD 0)

section
variable {peer channel sender : Int32} {l l' : Lane}

theorem start_sound (s : State) (c : Connection) : Sound peer channel (start s peer c) where
  counter := ⟨_, AList.lookup_insert _, by simp [Link.counter, start, place]⟩
  stamped := by simp [start]
  bounded := by simp [start]
  unique := by simp [start]
  seen := by simp [start]
  delivered := by simp [start]
  last := by simp [start, Last.on, place]

/-- A new count is on no other place of the wire. -/
theorem unique_concat {wire : List (Option Nat × Bytes)} {n : Nat} {w : Option Nat × Bytes}
    (hbounded : ∀ k d, (some k, d) ∈ wire → k ≤ n)
    (hunique : ∀ (i j k : Nat) (d e : Bytes), wire[i]? = some (some k, d) → wire[j]? = some (some k, e) → i = j)
    (hw : ∀ k ∈ w.1, n < k) (i j k : Nat) (d e : Bytes) (hi : (wire ++ [w])[i]? = some (some k, d))
    (hj : (wire ++ [w])[j]? = some (some k, e)) : i = j := by
  -- A count on the old wire is at most `n`.
  have hold : ∀ (i : Nat) (d : Bytes), (wire ++ [w])[i]? = some (some k, d) →
      wire[i]? = some (some k, d) ∧ k ≤ n ∨ i = wire.length ∧ n < k := by
    intro i d hi
    rcases Logs.getElem?_concat.1 hi with hi | ⟨rfl, rfl⟩
    · exact .inl ⟨hi, hbounded k d (List.mem_of_getElem? hi)⟩
    · exact .inr ⟨rfl, hw k rfl⟩
  rcases hold i d hi with ⟨hi, hki⟩ | ⟨hi, hki⟩
  · rcases hold j e hj with ⟨hj, -⟩ | ⟨-, hkj⟩
    · exact hunique i j k d e hi hj
    · omega
  · rcases hold j e hj with ⟨-, hkj⟩ | ⟨hj, -⟩
    · omega
    · exact hi.trans hj.symm

/-- The wire grows by a datagram with a new count, or by none with one. -/
theorem Sound.append (hs : Sound peer channel l) {state : State} {sends : Nat} {w : Option Nat × Bytes}
    (hcounter : Counts peer channel state sends) (hle : l.sends ≤ sends) (hw : Stamped channel w)
    (hk : ∀ k ∈ w.1, l.sends < k ∧ k ≤ sends) :
    Sound peer channel { l with state := state, sends := sends, wire := l.wire ++ [w] } := by
  refine ⟨hcounter, fun v hv => ?_, fun k d hv => ?_,
    unique_concat hs.bounded hs.unique fun k hmem => (hk k hmem).1, fun k hseen => ?_, hs.delivered, hs.last⟩
  · rcases List.mem_append.1 hv with hv | hv
    · exact hs.stamped v hv
    · exact List.mem_singleton.1 hv ▸ hw
  · rcases List.mem_append.1 hv with hv | hv
    · exact (hs.bounded k d hv).trans hle
    · exact (hk k (by simp [← List.mem_singleton.1 hv])).2
  · obtain ⟨i, hi, d, hd⟩ := hs.seen k hseen
    exact ⟨i, hi, d, Logs.getElem?_concat.2 (.inl hd)⟩

theorem send_sound {limits : Limits} {ch : Int32} {mode : Mode} {data : Bytes} (hs : Sound peer channel l)
    (h : step peer channel sender l (.send limits ch mode data) = some l') : Sound peer channel l' := by
  obtain ⟨hcounter, hwire⟩ := sendOne_counted hs.counter limits ch mode data
  have hle : l.sends ≤ if ch = channel ∧ mode = .unreliableOrdered then l.sends + 1 else l.sends := by
    split <;> omega
  obtain rfl := Option.some.inj h
  rcases hwire with hnone | ⟨d, hone, hstamped⟩
  · simp only [hnone, List.map_nil, List.append_nil]
    exact ⟨hcounter, hs.stamped, fun k d hk => (hs.bounded k d hk).trans hle, hs.unique, hs.seen, hs.delivered, hs.last⟩
  · simp only [hone, List.map_cons, List.map_nil]
    refine hs.append hcounter hle hstamped fun k hk => ?_
    split at hk
    next hord =>
      simp only [Option.mem_some_iff] at hk
      rw [if_pos hord]
      omega
    · simp at hk

theorem step_arrive {i : Nat} (h : step peer channel sender l (.arrive i) = some l') :
    ∃ count datagram, l.wire[i]? = some (count, datagram) ∧ i ∉ l.arrived ∧
      (∀ k ∈ count, ∀ j ∈ l.seen, j ≤ k + reordering) ∧
      l' = { l with
        last := (readDatagram sender l.last datagram).1
        arrived := i :: l.arrived
        seen := count.toList ++ l.seen
        delivered := l.delivered ++
          if (readDatagram sender l.last datagram).2.isSome then count.toList else [] } := by
  simp only [step] at h
  split at h
  · simp at h
  next count datagram hw =>
  split at h
  · simp at h
  next hno =>
  simp only [not_or, not_exists, not_and, Nat.not_lt] at hno
  simp only [Option.some.injEq] at h
  exact ⟨count, datagram, hw, hno.1, hno.2, h.symm⟩

theorem arrive_sound {i : Nat} (hs : Sound peer channel l) (h : step peer channel sender l (.arrive i) = some l') :
    Sound peer channel l' := by
  obtain ⟨count, datagram, hw, -, -, rfl⟩ := step_arrive h
  have hseen : ∀ k ∈ count.toList ++ l.seen, ∃ j ∈ i :: l.arrived, ∃ d, l.wire[j]? = some (some k, d) := by
    intro k hk
    rcases List.mem_append.1 hk with hk | hk
    · rw [Option.mem_toList] at hk
      exact ⟨i, by simp, datagram, by rw [hw, hk]⟩
    · obtain ⟨j, hj, hd⟩ := hs.seen k hk
      exact ⟨j, by simp [hj], hd⟩
  have hdelivered : ∀ new : List Nat, (∀ k ∈ new, k ∈ count) → ∀ k ∈ l.delivered ++ new, k ∈ count.toList ++ l.seen := by
    intro new hnew k hk
    rcases List.mem_append.1 hk with hk | hk
    · exact List.mem_append_right _ (hs.delivered k hk)
    · exact List.mem_append_left _ (Option.mem_toList.2 (hnew k hk))
  refine ⟨hs.counter, hs.stamped, hs.bounded, hs.unique, hseen, hdelivered _ ?_,
    read_last sender hs.last (hs.stamped _ (List.mem_of_getElem? hw))⟩
  intro k hk
  split at hk
  · exact Option.mem_toList.1 hk
  · simp at hk

theorem step_sound {a : Act} (hs : Sound peer channel l) (h : step peer channel sender l a = some l') :
    Sound peer channel l' := by
  cases a with
  | send limits ch mode data => exact send_sound hs h
  | arrive i => exact arrive_sound hs h

/-! ## Where it goes backwards -/

/-- Within a round, the reader sees that a datagram is late. -/
theorem late_is_stale {j k : Nat} (hk : 0 < k) (hkj : k < j) (hnear : j ≤ k + reordering)
    (hr : round numbers k = round numbers j) :
    place numbers k < place numbers j ∧ place numbers j - place numbers k < 2 ^ 31 - 1 := by
  obtain ⟨hsub, hle⟩ := place_sub_place hk hkj.le hr
  unfold reordering at hnear
  omega

/-- Across the end of a round, it does not. -/
theorem late_is_not_stale {j k : Nat} (hk : 0 < k) (hkj : k < j) (hnear : j ≤ k + reordering)
    (hr : round numbers k ≠ round numbers j) : ¬ place numbers k < place numbers j := by
  have hlt := place_lt_place hk hkj.le hr (by unfold reordering at hnear; unfold numbers; omega)
  omega

/-- A step keeps the order exactly when it meets the condition. -/
theorem step_increasing {a : Act} (hs : Sound peer channel l) (h : step peer channel sender l a = some l') :
    l'.Increasing ↔ l.Increasing ∧ Met l a := by
  cases a with
  | send limits ch mode data =>
    simp only [step, Option.some.injEq] at h
    subst h
    simp [Increasing, Met]
  | arrive i =>
    obtain ⟨count, datagram, hw, hnew, hnear, rfl⟩ := step_arrive h
    cases hs.stamped _ (List.mem_of_getElem? hw) with
    | other data hother => simp [Increasing, Met, hw]
    | @counted k sequence data hk hplace =>
      have hmet : Met l (.arrive i) ↔ ∀ j ∈ l.delivered.getLast?, k < j → round numbers k = round numbers j := by
        simp [Met, hw]
      have hwithin : ∀ j ∈ l.delivered.getLast?, j ≤ k + reordering ∧ j ≠ k := by
        intro j hj
        have hj := hs.delivered j (List.mem_of_getLast? hj)
        refine ⟨hnear k rfl j hj, ?_⟩
        rintro rfl
        obtain ⟨i', hi', d, hd⟩ := hs.seen j hj
        exact hnew (hs.unique i i' j _ d hw hd ▸ hi')
      rw [hmet]
      rcases read_counted sender data hs.last hk hplace with ⟨hst, -, hsome⟩ | ⟨hst, -, hsome⟩
      · simp only [Increasing, hsome, Bool.false_eq_true, if_false, List.append_nil, iff_self_and]
        intro _ j hj hkj
        by_contra hr
        rw [hj] at hst
        exact late_is_not_stale hk hkj (hwithin j hj).1 hr hst.1
      · simp only [Increasing, hsome, if_true, Option.toList_some, Logs.pairwise_concat_last]
        refine and_congr_right fun _ => forall₂_congr fun j hj => ⟨fun hlt hkj => by omega, fun hr => ?_⟩
        by_contra hle
        have hkj : k < j := by have := (hwithin j hj).2; omega
        rw [hj] at hst
        exact hst (late_is_stale hk hkj (hwithin j hj).1 (hr hkj))

/-- **Ordered datagrams.** What the reader delivers is in increasing order of
sending exactly when no datagram arrives behind the one delivered last with
the counter starting over in between. -/
theorem increasing_iff (s : State) (c : Connection) {as : List Act}
    (h : Machine.run (step peer channel sender) (start s peer c) as = some l) :
    l.Increasing ↔ Machine.Along (step peer channel sender) Met (start s peer c) as := by
  refine (Machine.run_trace (I := fun as l => Sound peer channel l ∧
    (l.Increasing ↔ Machine.Along (step peer channel sender) Met (start s peer c) as))
    ⟨start_sound s c, by simp [start, Increasing, Machine.Along]⟩ ?_ h).2
  rintro as l a l' hrun ⟨hs, hiff⟩ hstep
  refine ⟨step_sound hs hstep, ?_⟩
  rw [step_increasing hs hstep, hiff, Machine.along_append hrun]
  simp [Machine.Along]

/-- Three sends, of which the second arrives last and is dropped. -/
theorem increasing_iff_reordered : ∃ l, Machine.run (step 1 0 1) (start { isHost := false } 1 0)
      (List.replicate 3 (.send (fun _ => some 1200) 0 .unreliableOrdered [7]) ++ [.arrive 0, .arrive 2, .arrive 1]) =
        some l ∧ l.delivered = [1, 3] ∧
    (l.Increasing ↔ Machine.Along (step 1 0 1) Met (start { isHost := false } 1 0)
      (List.replicate 3 (.send (fun _ => some 1200) 0 .unreliableOrdered [7]) ++
        [.arrive 0, .arrive 2, .arrive 1])) := by
  have hrun : (Machine.run (step 1 0 1) (start { isHost := false } 1 0)
      (List.replicate 3 (.send (fun _ => some 1200) 0 .unreliableOrdered [7]) ++
        [.arrive 0, .arrive 2, .arrive 1])).map (·.delivered) = some [1, 3] := by decide +kernel
  obtain ⟨l, hl, hd⟩ := Option.map_eq_some_iff.1 hrun
  exact ⟨l, hl, hd, increasing_iff _ _ hl⟩

/-- The sender's counter does not start over between a datagram and a later
one that arrives before it. -/
def Uncrossed (l : Lane) : Act → Prop
  | .send .. => True
  | .arrive i => ∀ k ∈ l.wire[i]?.bind (·.1), ∀ j ∈ l.seen, k < j → round numbers k = round numbers j

/-- However the datagrams are reordered between two starts of the counter,
they are delivered in order. -/
theorem increasing_of_uncrossed (s : State) (c : Connection) {as : List Act}
    (h : Machine.run (step peer channel sender) (start s peer c) as = some l)
    (hG : Machine.Along (step peer channel sender) Uncrossed (start s peer c) as) : l.Increasing := by
  refine (Machine.run_invariant_along (I := fun l => Sound peer channel l ∧ l.Increasing) ?_ h hG
    ⟨start_sound s c, by simp [start, Increasing]⟩).2
  rintro l a l' ⟨hs, hinc⟩ hun hstep
  refine ⟨step_sound hs hstep, (step_increasing hs hstep).2 ⟨hinc, ?_⟩⟩
  cases a with
  | send limits ch mode data => trivial
  | arrive i => exact fun k hk j hj => hun k hk j (hs.delivered j (List.mem_of_getLast? hj))

/-! ## A run that starts over -/

/-- A datagram that arrives and is not taken for a late one. -/
theorem arrive_delivers (sender : Int32) (hs : Sound peer channel l) {i k : Nat} {d : Bytes} (hw : l.wire[i]? = some (some k, d))
    (hi : i ∉ l.arrived) (hnear : ∀ j ∈ l.seen, j ≤ k + reordering)
    (hst : ¬ place numbers k < place numbers (l.delivered.getLast?.getD 0)) :
    ∃ l', step peer channel sender l (.arrive i) = some l' ∧ l'.wire = l.wire ∧ l'.arrived = i :: l.arrived ∧
      l'.seen = k :: l.seen ∧ l'.delivered = l.delivered ++ [k] := by
  have hguard : ¬ (i ∈ l.arrived ∨ ∃ n ∈ some k, ∃ j ∈ l.seen, n + reordering < j) := by
    rintro (hmem | ⟨n, hn, j, hj, hlt⟩)
    · exact hi hmem
    · have := hnear j hj
      rw [Option.mem_some_iff] at hn
      omega
  obtain ⟨l', hl'⟩ : ∃ l', step peer channel sender l (.arrive i) = some l' :=
    ⟨_, by simp only [step, hw, if_neg hguard]; rfl⟩
  obtain ⟨count, datagram, hw', -, -, rfl⟩ := step_arrive hl'
  rw [hw, Option.some.injEq, Prod.mk.injEq] at hw'
  obtain ⟨rfl, rfl⟩ := hw'
  refine ⟨_, hl', rfl, rfl, rfl, ?_⟩
  cases hs.stamped _ (List.mem_of_getElem? hw) with
  | counted data hk hplace =>
    rcases read_counted sender data hs.last hk hplace with ⟨hlate, -, -⟩ | ⟨-, -, hsome⟩
    · exact absurd hlate.1 hst
    · simp only [hsome, if_true, Option.toList_some]

/-- `n` ordered sends of a payload that fits a datagram. -/
theorem run_sends (peer channel sender : Int32) (s : State) (c : Connection) (n : Nat) :
    ∃ l, Machine.run (step peer channel sender) (start s peer c)
        (List.replicate n (.send (fun _ => some 1200) channel .unreliableOrdered [])) = some l ∧
      Sound peer channel l ∧ l.sends = n ∧ l.wire.length = n ∧ (∀ i < n, ∃ d, l.wire[i]? = some (some (i + 1), d)) ∧
      l.arrived = [] ∧ l.seen = [] ∧ l.delivered = [] := by
  induction n with
  | zero => exact ⟨_, rfl, start_sound s c, rfl, rfl, by simp, rfl, rfl, rfl⟩
  | succ n ih =>
    obtain ⟨l, hrun, hs, hsends, hlength, hcounts, harrived, hseen, hdelivered⟩ := ih
    obtain ⟨link, hl, -⟩ := hs.counter
    have hd : (l.state.sendOne (fun _ => some 1200) peer channel .unreliableOrdered []).datagrams =
        l.state.datagrams ++
          [(link.connection, frameDatagram channel (link.sequence channel .unreliableOrdered) [])] := by
      rw [State.sendOne, State.writeDatagram, hl]
      rfl
    have hstep : step peer channel sender l (.send (fun _ => some 1200) channel .unreliableOrdered []) = some _ := rfl
    refine ⟨_, ?_, step_sound hs hstep, ?_, ?_, ?_, harrived, hseen, hdelivered⟩
    · rw [List.replicate_succ', Machine.run_concat]
      exact ⟨l, hrun, hstep⟩
    · simp [hsends]
    · simp [hd, hlength]
    · intro i hi
      simp only [and_self, if_true, hd, List.drop_left, List.map_cons, List.map_nil]
      by_cases hlt : i < n
      · obtain ⟨d, hd⟩ := hcounts i hlt
        exact ⟨d, by rw [List.getElem?_append_left (by omega), hd]⟩
      · have : i = l.wire.length := by omega
        subst this
        exact ⟨_, by rw [List.getElem?_concat_length, hsends, hlength]⟩

end

/-- The counter starts over with the last of 2³² sends, and that one arrives
first: the one before it is delivered after it. -/
theorem late_across_the_end : ∃ l, Machine.run (step 1 0 1) (start { isHost := false } 1 0)
      (List.replicate (2 ^ 32) (.send (fun _ => some 1200) 0 .unreliableOrdered []) ++
        [.arrive (2 ^ 32 - 1), .arrive (2 ^ 32 - 2)]) = some l ∧
    l.delivered = [2 ^ 32, 2 ^ 32 - 1] ∧ ¬ l.Increasing := by
  have hlast : place numbers (2 ^ 32) = 1 := by decide
  have hbefore : place numbers (2 ^ 32 - 1) = 2 ^ 32 - 1 := by decide
  obtain ⟨l, hrun, hs, -, -, hcounts, harrived, hseen, hdelivered⟩ :=
    run_sends 1 0 1 { isHost := false } 0 (2 ^ 32)
  obtain ⟨d, hd⟩ := hcounts (2 ^ 32 - 1) (by omega)
  obtain ⟨e, he⟩ := hcounts (2 ^ 32 - 2) (by omega)
  obtain ⟨m, hm, hmwire, hmarrived, hmseen, hmdelivered⟩ := arrive_delivers 1 hs (k := 2 ^ 32) hd
    (by simp [harrived]) (by simp [hseen]) (by simp [hdelivered, place])
  have hms := step_sound hs hm
  obtain ⟨n, hn, -, -, -, hndelivered⟩ := arrive_delivers 1 hms (k := 2 ^ 32 - 1)
    (by rw [hmwire]; exact he) (by simp [hmarrived, harrived])
    (by simp [hmseen, hseen, reordering])
    (by rw [hmdelivered, hdelivered, List.nil_append, List.getLast?_singleton, Option.getD_some, hlast, hbefore]
        omega)
  have hdel : n.delivered = [2 ^ 32, 2 ^ 32 - 1] := by rw [hndelivered, hmdelivered, hdelivered]; rfl
  refine ⟨n, ?_, hdel, ?_⟩
  · rw [Machine.run_append]
    exact ⟨l, hrun, Machine.run_cons.2 ⟨m, hm, Machine.run_cons.2 ⟨n, hn, Machine.run_nil⟩⟩⟩
  · rw [Increasing, hdel]
    simp

end Lane
end Gdiroh.Session
