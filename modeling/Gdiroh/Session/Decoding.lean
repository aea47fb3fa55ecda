/-
What `Control::decode` makes of any bytes.

On a 64-bit target it is the inverse of `encode` up to what follows: it finds
a message exactly where the message's encoding stands at the front
(`control_codec`).

`decode_safe_iff` is about any width of `usize`. The only length that the
remote chooses is guarded by the product `count * 4`, and where this wraps
the guard may let too large a count through: on a 32-bit target nine bytes
are enough to run `get_i32` out of bytes (`decode_panics`).
-/
import Gdiroh.Session.Control

namespace Gdiroh.Session
open BigEndian

namespace Control

/-! ## The getters -/

/-- The peers are there, if enough bytes are. -/
theorem takePeers_of_le {count : Nat} {frame : Bytes} (h : count * 4 ≤ frame.length) :
    ∃ peers, takePeers count frame = .ok peers ∧ peers.length = count ∧ peers.flatMap putI32 <+: frame := by
  induction count generalizing frame with
  | zero => exact ⟨[], rfl, rfl, List.nil_prefix⟩
  | succ count ih =>
    have hfour : 4 ≤ frame.length := by omega
    obtain ⟨peer, rest, rfl⟩ := exists_putI32 hfour
    simp only [List.length_append, length_putI32] at h
    have hrest : count * 4 ≤ rest.length := by omega
    obtain ⟨peers, htake, hlength, hpre⟩ := ih hrest
    refine ⟨peer :: peers, ?_, by simp [hlength], ?_⟩
    · simp only [takePeers, takeI32_putI32, bind, Except.bind, htake]
      rfl
    · rw [List.flatMap_cons]
      exact (List.prefix_append_right_inj _).2 hpre

theorem takePeers_of_lt {count : Nat} {frame : Bytes} (h : frame.length < count * 4) :
    takePeers count frame = .error .outOfBytes := by
  induction count generalizing frame with
  | zero => omega
  | succ count ih =>
    by_cases hlong : 4 ≤ frame.length
    · obtain ⟨peer, rest, rfl⟩ := exists_putI32 hlong
      simp only [List.length_append, length_putI32] at h
      have hrest : rest.length < count * 4 := by omega
      simp only [takePeers, takeI32_putI32, bind, Except.bind, ih hrest]
    · have hget : getI32 frame = none := getI32_eq_none.2 (Nat.lt_of_not_le hlong)
      simp only [takePeers, takeI32, hget, bind, Except.bind]

/-! ## Any frame -/

/-- A frame by what `decode` sees of it: a kind with all its fields, or
something else. -/
inductive Shape : Bytes → Prop
  | welcome (yourId : Int32) (count : UInt32) (rest : Bytes) :
      Shape (1 :: (putI32 yourId ++ (putU32 count ++ rest)))
  | peerJoined (id : Int32) (rest : Bytes) : Shape (2 :: (putI32 id ++ rest))
  | peerLeft (id : Int32) (rest : Bytes) : Shape (3 :: (putI32 id ++ rest))
  | other {frame : Bytes} (hdecode : ∀ bits, decode bits frame = .ok none) (hencode : ∀ c, ¬ encode c <+: frame) :
      Shape frame

/-- The encoding of a message is longer than its kind. -/
theorem length_encode (c : Control) : 5 ≤ c.encode.length ∧ (c.encode.head? = some 1 → 9 ≤ c.encode.length) := by
  cases c with
  | welcome yourId peers =>
    simp only [encode, List.length_cons, List.length_append, length_putI32, length_putU32]
    omega
  | peerJoined id => simp [encode]
  | peerLeft id => simp [encode]

theorem shape (frame : Bytes) : Shape frame := by
  cases frame with
  | nil =>
    refine .other (fun _ => rfl) fun c hpre => ?_
    have hlength := (length_encode c).1
    rw [List.prefix_nil.1 hpre] at hlength
    simp at hlength
  | cons kind frame =>
    by_cases hone : kind = 1
    · subst hone
      by_cases hlong : 8 ≤ frame.length
      · have hid : 4 ≤ frame.length := by omega
        obtain ⟨yourId, frame, rfl⟩ := exists_putI32 hid
        rw [List.length_append, length_putI32] at hlong
        have hcount : 4 ≤ frame.length := by omega
        obtain ⟨count, rest, rfl⟩ := exists_putU32 hcount
        exact .welcome yourId count rest
      · refine .other (fun bits => ?_) fun c hpre => ?_
        · simp [decode, Nat.lt_of_not_le hlong]
        · have hle := hpre.length_le
          have hhead : c.encode.head? = some 1 := by
            cases c <;> simp_all [encode]
          have hlength := (length_encode c).2 hhead
          simp only [List.length_cons] at hle
          omega
    · by_cases hlong : 4 ≤ frame.length
      · obtain ⟨id, rest, rfl⟩ := exists_putI32 hlong
        by_cases htwo : kind = 2
        · exact htwo ▸ .peerJoined id rest
        by_cases hthree : kind = 3
        · exact hthree ▸ .peerLeft id rest
        refine .other (fun bits => by simp [decode, hone, htwo, hthree]) fun c hpre => ?_
        cases c <;> simp_all [encode]
      · refine .other (fun bits => by simp [decode, hone, hlong]) fun c hpre => ?_
        have hle := hpre.length_le
        have hlength := (length_encode c).1
        simp only [List.length_cons] at hle
        omega

/-! ## The codec -/

/-- What is decoded stands at the front, and its count is what it was. -/
theorem decode_some {bits : Nat} {frame : Bytes} {c : Control} (h : decode bits frame = .ok (some c)) :
    c.size < 2 ^ 32 ∧ c.encode <+: frame := by
  cases shape frame with
  | welcome yourId count rest =>
    rw [decode_welcome_bytes] at h
    split at h
    · simp at h
    by_cases hfit : count.toNat * 4 ≤ rest.length
    · obtain ⟨peers, htake, hlength, hpre⟩ := takePeers_of_le hfit
      rw [htake] at h
      obtain rfl : Control.welcome yourId peers = c := by simpa [Except.map] using h
      refine ⟨by rw [size, hlength]; exact count.toNat_lt, ?_⟩
      rw [encode, hlength, UInt32.ofNat_toNat, List.append_assoc]
      simpa [List.prefix_append_right_inj] using hpre
    · rw [takePeers_of_lt (Nat.lt_of_not_le hfit)] at h
      simp [Except.map] at h
  | peerJoined id rest =>
    obtain rfl : Control.peerJoined id = c := by simpa [decode_peerJoined_bytes] using h
    exact ⟨by simp [size], List.prefix_append (2 :: putI32 id) rest⟩
  | peerLeft id rest =>
    obtain rfl : Control.peerLeft id = c := by simpa [decode_peerLeft_bytes] using h
    exact ⟨by simp [size], List.prefix_append (3 :: putI32 id) rest⟩
  | other hdecode _ =>
    rw [hdecode] at h
    simp at h

/-! ## Running out of bytes -/

/-- Where peers are announced and the check lets them through, they are all
there. -/
def Sufficient (bits : Nat) (frame : Bytes) : Prop :=
  ∀ yourId count rest, frame = 1 :: (putI32 yourId ++ (putU32 count ++ rest)) →
    count.toNat * 4 % 2 ^ bits ≤ rest.length → count.toNat * 4 ≤ rest.length

theorem sufficient_of_decode {bits : Nat} {frame : Bytes} {c : Option Control} (hc : decode bits frame = .ok c) :
    Sufficient bits frame := by
  rintro yourId count rest rfl hpass
  by_contra hshort
  rw [decode_welcome_bytes, if_neg (Nat.not_lt.2 hpass), takePeers_of_lt (Nat.lt_of_not_le hshort)] at hc
  simp [Except.map] at hc

theorem Sufficient.decode {bits : Nat} {frame : Bytes} (h : Sufficient bits frame) :
    ∃ c, decode bits frame = .ok c := by
  cases shape frame with
  | welcome yourId count rest =>
    rw [decode_welcome_bytes]
    split
    · exact ⟨none, rfl⟩
    next hpass =>
      obtain ⟨peers, htake, -⟩ := takePeers_of_le (h yourId count rest rfl (Nat.le_of_not_lt hpass))
      exact ⟨some (.welcome yourId peers), by rw [htake]; rfl⟩
  | peerJoined id rest => exact ⟨_, decode_peerJoined_bytes bits id rest⟩
  | peerLeft id rest => exact ⟨_, decode_peerLeft_bytes bits id rest⟩
  | other hdecode _ => exact ⟨none, hdecode bits⟩

/-- **No panic while the check is right.** The bytes run out exactly where
the wrapped product lets a count through that the true one does not. -/
theorem decode_safe_iff (bits : Nat) (frame : Bytes) : (∃ c, decode bits frame = .ok c) ↔ Sufficient bits frame :=
  ⟨fun ⟨_, hc⟩ => sufficient_of_decode hc, fun h => h.decode⟩

/-- A count of 2³⁰ and nothing behind it: with 32 bits the product is zero. -/
theorem decode_panics : ¬ ∀ bits, bits = 32 ∨ bits = 64 → ∀ frame, ∃ c, decode bits frame = .ok c := by
  intro hall
  obtain ⟨c, hc⟩ := hall 32 (.inl rfl) (1 :: (putI32 0 ++ (putU32 (2 ^ 30) ++ [])))
  rw [decode_welcome_bytes, if_neg (by decide), takePeers_of_lt (by decide)] at hc
  simp [Except.map] at hc

/-- A product of 32 bits by four does not wrap in 64. -/
theorem sufficient_of_width {bits : Nat} (frame : Bytes) (hbits : 34 ≤ bits) : Sufficient bits frame := by
  intro yourId count rest _ hpass
  have hlt : count.toNat * 4 < 2 ^ bits :=
    calc count.toNat * 4 < 2 ^ 34 := by have := count.toNat_lt; omega
      _ ≤ 2 ^ bits := Nat.pow_le_pow_right (by decide) hbits
  rwa [Nat.mod_eq_of_lt hlt] at hpass

/-- **The codec, on a 64-bit target.** Decoding finds a message exactly where
its encoding stands, and there is at most one. -/
theorem control_codec :
    (∀ c : Control, c.size < 2 ^ 32 → decode 64 c.encode = .ok (some c)) ∧
    (∀ (c : Control) frame, c.size < 2 ^ 32 → (decode 64 frame = .ok (some c) ↔ c.encode <+: frame)) ∧
    (∀ frame, decode 64 frame = .ok none ↔ ∀ c : Control, c.size < 2 ^ 32 → ¬ c.encode <+: frame) ∧
    ∀ (c d : Control) frame, c.size < 2 ^ 32 → d.size < 2 ^ 32 → c.encode <+: frame → d.encode <+: frame → c = d := by
  have hiff : ∀ (c : Control) frame, c.size < 2 ^ 32 → (decode 64 frame = .ok (some c) ↔ c.encode <+: frame) := by
    intro c frame hc
    constructor
    · exact fun h => (decode_some h).2
    · rintro ⟨rest, rfl⟩
      exact decode_encode_append hc 64 rest
  refine ⟨fun c hc => (hiff c _ hc).2 (List.prefix_refl _), hiff, fun frame => ⟨fun hnone c hc hpre => ?_, fun hno => ?_⟩,
    fun c d frame hc hd hcpre hdpre => ?_⟩
  · have hsome := (hiff c frame hc).2 hpre
    simp [hnone] at hsome
  · have hsufficient : Sufficient 64 frame := sufficient_of_width frame (by decide)
    obtain ⟨r, hr⟩ := hsufficient.decode
    cases r with
    | none => exact hr
    | some c => exact absurd (decode_some hr).2 (hno c (decode_some hr).1)
  · have hsame := ((hiff c frame hc).2 hcpre).symm.trans ((hiff d frame hd).2 hdpre)
    simpa using hsame

end Control
end Gdiroh.Session
