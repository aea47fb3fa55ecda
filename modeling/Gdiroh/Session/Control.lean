/-
The membership messages of `session.rs` and their bytes (`Control::encode`,
`Control::decode`).

`decode` checks that enough bytes remain before it takes them, with the
product `count * 4` computed in `usize`. The width of `usize` is a
parameter, since the crate is built for 32-bit targets too, and running out
of bytes inside `get_i32` or `get_u32` is a panic of its own, not a `None`.
The session's readers use the 64-bit build (`decode64`).
-/
import Gdiroh.Lib.Bytes

namespace Gdiroh.Session
open BigEndian

/-- Membership messages exchanged on the control channel. -/
inductive Control where
  /-- Host to client, once: your id, then everyone already present. -/
  | welcome (yourId : Int32) (peers : List Int32)
  | peerJoined (id : Int32)
  | peerLeft (id : Int32)
deriving DecidableEq

/-- A `Buf` getter found too few bytes. -/
inductive Panic where
  | outOfBytes
deriving DecidableEq

namespace Control

def encode : Control → Bytes
  | .welcome yourId peers =>
    1 :: (putI32 yourId ++ putU32 (.ofNat peers.length) ++ peers.flatMap putI32)
  | .peerJoined id => 2 :: putI32 id
  | .peerLeft id => 3 :: putI32 id

/-- `frame.get_i32()`. -/
def takeI32 (frame : Bytes) : Except Panic (Int32 × Bytes) :=
  match getI32 frame with
  | some r => .ok r
  | none => .error .outOfBytes

/-- `frame.get_u32()`. -/
def takeU32 (frame : Bytes) : Except Panic (UInt32 × Bytes) :=
  match getU32 frame with
  | some r => .ok r
  | none => .error .outOfBytes

/-- `(0..count).map(|_| frame.get_i32()).collect()`. -/
def takePeers : Nat → Bytes → Except Panic (List Int32)
  | 0, _ => .ok []
  | count + 1, frame => do
    let (peer, frame) ← takeI32 frame
    let peers ← takePeers count frame
    return peer :: peers

/-- `Control::decode` where `usize` has `bits` bits. -/
def decode (bits : Nat) : Bytes → Except Panic (Option Control)
  | [] => .ok none
  | kind :: frame =>
    if kind = 1 then
      if frame.length < 8 then .ok none
      else do
        let (yourId, frame) ← takeI32 frame
        let (count, frame) ← takeU32 frame
        if frame.length < count.toNat * 4 % 2 ^ bits then return none
        let peers ← takePeers count.toNat frame
        return some (.welcome yourId peers)
    else if kind = 2 ∧ 4 ≤ frame.length then do
      let (id, _) ← takeI32 frame
      return some (.peerJoined id)
    else if kind = 3 ∧ 4 ≤ frame.length then do
      let (id, _) ← takeI32 frame
      return some (.peerLeft id)
    else .ok none

/-- `Control::decode` on a 64-bit target. A panic would end the reader task
with nothing reported, like `none`. -/
def decode64 (frame : Bytes) : Option Control :=
  match decode 64 frame with
  | .ok c => c
  | .error _ => none

@[simp] theorem takeI32_putI32 (n : Int32) (rest : Bytes) : takeI32 (putI32 n ++ rest) = .ok (n, rest) := by
  simp [takeI32]

@[simp] theorem takeU32_putU32 (n : UInt32) (rest : Bytes) : takeU32 (putU32 n ++ rest) = .ok (n, rest) := by
  simp [takeU32]

theorem length_flatMap_putI32 (peers : List Int32) : (peers.flatMap putI32).length = 4 * peers.length := by
  induction peers with
  | nil => rfl
  | cons p ps ih =>
    simp only [List.flatMap_cons, List.length_append, length_putI32, ih, List.length_cons]
    omega

theorem takePeers_flatMap (peers : List Int32) (rest : Bytes) :
    takePeers peers.length (peers.flatMap putI32 ++ rest) = .ok peers := by
  induction peers with
  | nil => rfl
  | cons p ps ih =>
    simp only [List.length_cons, takePeers, List.flatMap_cons, List.append_assoc, takeI32_putI32]
    simp only [bind, Except.bind, ih]
    rfl

/-- How many peers a message lists. -/
def size : Control → Nat
  | .welcome _ peers => peers.length
  | .peerJoined _ | .peerLeft _ => 0

/-- The welcome branch, reader by reader. -/
theorem decode_kind_one {bits : Nat} {frame afterId afterCount : Bytes} {yourId : Int32} {count : UInt32}
    (hlength : ¬ frame.length < 8) (hid : takeI32 frame = .ok (yourId, afterId))
    (hcount : takeU32 afterId = .ok (count, afterCount)) :
    decode bits (1 :: frame) =
      if afterCount.length < count.toNat * 4 % 2 ^ bits then .ok none
      else (takePeers count.toNat afterCount).map fun peers => some (.welcome yourId peers) := by
  simp only [decode, ite_true, if_neg hlength, hid, hcount, bind, Except.bind, pure, Except.pure]
  split
  · rfl
  · cases takePeers count.toNat afterCount <;> rfl

theorem decode_welcome_bytes (bits : Nat) (yourId : Int32) (count : UInt32) (rest : Bytes) :
    decode bits (1 :: (putI32 yourId ++ (putU32 count ++ rest))) =
      if rest.length < count.toNat * 4 % 2 ^ bits then .ok none
      else (takePeers count.toNat rest).map fun peers => some (.welcome yourId peers) := by
  refine decode_kind_one ?_ (takeI32_putI32 _ _) (takeU32_putU32 _ _)
  simp only [List.length_append, length_putI32, length_putU32]
  omega

theorem decode_peerJoined_bytes (bits : Nat) (id : Int32) (rest : Bytes) :
    decode bits (2 :: (putI32 id ++ rest)) = .ok (some (.peerJoined id)) := by
  simp [decode, bind, Except.bind, pure, Except.pure]

theorem decode_peerLeft_bytes (bits : Nat) (id : Int32) (rest : Bytes) :
    decode bits (3 :: (putI32 id ++ rest)) = .ok (some (.peerLeft id)) := by
  simp [decode, bind, Except.bind, pure, Except.pure]

/-- A message is found at the front of what follows it, whatever the width of
`usize`: the product of the check only ever comes out smaller. -/
theorem decode_encode_append {c : Control} (hc : c.size < 2 ^ 32) (bits : Nat) (rest : Bytes) :
    decode bits (c.encode ++ rest) = .ok (some c) := by
  cases c with
  | welcome yourId peers =>
    have hcount : (UInt32.ofNat peers.length).toNat = peers.length := by
      simp only [UInt32.toNat_ofNat']
      exact Nat.mod_eq_of_lt hc
    have hfit : ¬ (peers.flatMap putI32 ++ rest).length < peers.length * 4 % 2 ^ bits := by
      have hle := Nat.mod_le (peers.length * 4) (2 ^ bits)
      rw [List.length_append, length_flatMap_putI32]
      omega
    simp only [encode, List.cons_append, List.append_assoc]
    rw [decode_welcome_bytes, hcount, if_neg hfit, takePeers_flatMap]
    rfl
  | peerJoined id => exact decode_peerJoined_bytes bits id rest
  | peerLeft id => exact decode_peerLeft_bytes bits id rest

/-- **What is encoded is decoded again**, on a 64-bit target, when the peer
list fits its 32-bit count. -/
theorem decode64_encode {c : Control} (hc : c.size < 2 ^ 32) : decode64 c.encode = some c := by
  have h := decode_encode_append hc 64 []
  rw [List.append_nil] at h
  rw [decode64, h]

end Control

end Gdiroh.Session
