/-
Byte strings as the wire carries them: big-endian 32-bit words, and frames
prefixed by their length.

Reading is the exact inverse of writing in both directions (`getU32_eq_some`,
`nextFrame_eq_some`), so what a reader takes off a byte string can be put
back, and a list of frames is recovered from any prefix of its encoding
(`encodeFrames_isPre`).
-/
import Mathlib.Algebra.Group.Nat.Defs
import Mathlib.Data.List.Infix
import Mathlib.Tactic.Common

/-- A byte string. -/
abbrev Bytes := List UInt8

namespace BigEndian

/-- The four bytes of a word, the most significant first. -/
def putU32 (n : UInt32) : Bytes :=
  [.ofNat (n.toNat / 2 ^ 24), .ofNat (n.toNat / 2 ^ 16), .ofNat (n.toNat / 2 ^ 8), .ofNat n.toNat]

/-- Takes a word off the front; `none` when fewer than four bytes are left. -/
def getU32 : Bytes → Option (UInt32 × Bytes)
  | a :: b :: c :: d :: rest =>
    some (.ofNat (a.toNat * 2 ^ 24 + b.toNat * 2 ^ 16 + c.toNat * 2 ^ 8 + d.toNat), rest)
  | _ => none

/-- A signed word, in two's complement. -/
def putI32 (n : Int32) : Bytes := putU32 n.toUInt32

def getI32 (bs : Bytes) : Option (Int32 × Bytes) :=
  (getU32 bs).map fun (n, rest) => (n.toInt32, rest)

@[simp] theorem length_putU32 (n : UInt32) : (putU32 n).length = 4 := rfl
@[simp] theorem length_putI32 (n : Int32) : (putI32 n).length = 4 := rfl

@[simp] theorem getU32_putU32 (n : UInt32) (rest : Bytes) : getU32 (putU32 n ++ rest) = some (n, rest) := by
  simp only [putU32, List.cons_append, List.nil_append, getU32, Option.some.injEq, Prod.mk.injEq, and_true]
  apply UInt32.toNat_inj.1
  have := n.toNat_lt
  simp only [UInt8.toNat_ofNat', UInt32.toNat_ofNat']
  omega

theorem putU32_of_bytes (a b c d : UInt8) :
    putU32 (.ofNat (a.toNat * 2 ^ 24 + b.toNat * 2 ^ 16 + c.toNat * 2 ^ 8 + d.toNat)) = [a, b, c, d] := by
  have ha := a.toNat_lt
  have hb := b.toNat_lt
  have hc := c.toNat_lt
  have hd := d.toNat_lt
  simp only [putU32, List.cons.injEq, and_true, ← UInt8.toNat_inj, UInt8.toNat_ofNat',
    UInt32.toNat_ofNat']
  omega

/-- A word is read exactly where its four bytes stand. -/
theorem getU32_eq_some {bs rest : Bytes} {n : UInt32} :
    getU32 bs = some (n, rest) ↔ bs = putU32 n ++ rest := by
  constructor
  · intro h
    match bs with
    | a :: b :: c :: d :: bs =>
      simp only [getU32, Option.some.injEq, Prod.mk.injEq] at h
      obtain ⟨rfl, rfl⟩ := h
      rw [putU32_of_bytes]
      rfl
    | [] | [_] | [_, _] | [_, _, _] => simp [getU32] at h
  · rintro rfl
    exact getU32_putU32 n rest

@[simp] theorem getI32_putI32 (n : Int32) (rest : Bytes) : getI32 (putI32 n ++ rest) = some (n, rest) := by
  simp [getI32, putI32]

theorem getI32_eq_some {bs rest : Bytes} {n : Int32} :
    getI32 bs = some (n, rest) ↔ bs = putI32 n ++ rest := by
  simp only [getI32, Option.map_eq_some_iff, Prod.exists, Prod.mk.injEq, putI32]
  constructor
  · rintro ⟨m, r, hm, rfl, rfl⟩
    simpa using getU32_eq_some.1 hm
  · rintro rfl
    exact ⟨n.toUInt32, rest, getU32_putU32 _ _, by simp, rfl⟩

/-- Only too few bytes keep a word from being read. -/
theorem getU32_eq_none {bs : Bytes} : getU32 bs = none ↔ bs.length < 4 := by
  match bs with
  | _ :: _ :: _ :: _ :: _ => simp [getU32]
  | [] | [_] | [_, _] | [_, _, _] => simp [getU32]

theorem getI32_eq_none {bs : Bytes} : getI32 bs = none ↔ bs.length < 4 := by
  simp [getI32, getU32_eq_none]

theorem exists_putU32 {bs : Bytes} (h : 4 ≤ bs.length) : ∃ n rest, bs = putU32 n ++ rest := by
  cases hget : getU32 bs with
  | none => exact absurd (getU32_eq_none.1 hget) (Nat.not_lt.2 h)
  | some got => exact ⟨got.1, got.2, getU32_eq_some.1 hget⟩

theorem exists_putI32 {bs : Bytes} (h : 4 ≤ bs.length) : ∃ n rest, bs = putI32 n ++ rest := by
  cases hget : getI32 bs with
  | none => exact absurd (getI32_eq_none.1 hget) (Nat.not_lt.2 h)
  | some got => exact ⟨got.1, got.2, getI32_eq_some.1 hget⟩

end BigEndian

namespace Framing
open BigEndian

/-- A frame on the wire: its length, cut to 32 bits, then its bytes. -/
def frame (f : Bytes) : Bytes := putU32 (.ofNat f.length) ++ f

/-- Takes one complete frame off the front. -/
def nextFrame (bs : Bytes) : Option (Bytes × Bytes) :=
  (getU32 bs).bind fun (n, rest) =>
    if n.toNat ≤ rest.length then some (rest.take n.toNat, rest.drop n.toNat) else none

/-- Frames one after the other. -/
def encodeFrames (fs : List Bytes) : Bytes := fs.flatMap frame

@[simp] theorem encodeFrames_nil : encodeFrames [] = [] := rfl

@[simp] theorem encodeFrames_cons (f : Bytes) (fs : List Bytes) :
    encodeFrames (f :: fs) = frame f ++ encodeFrames fs := rfl

@[simp] theorem encodeFrames_append (fs gs : List Bytes) :
    encodeFrames (fs ++ gs) = encodeFrames fs ++ encodeFrames gs := by
  simp [encodeFrames]

theorem toNat_ofNat_length {f : Bytes} (hf : f.length < 2 ^ 32) :
    (UInt32.ofNat f.length).toNat = f.length := by
  simp only [UInt32.toNat_ofNat']
  omega

theorem nextFrame_frame {f : Bytes} (hf : f.length < 2 ^ 32) (rest : Bytes) :
    nextFrame (frame f ++ rest) = some (f, rest) := by
  simp [nextFrame, frame, List.append_assoc, toNat_ofNat_length hf]

/-- A frame is read exactly where its encoding stands; a frame read is
shorter than `2 ^ 32` whatever the bytes are. -/
theorem nextFrame_eq_some {bs f rest : Bytes} :
    nextFrame bs = some (f, rest) ↔ bs = frame f ++ rest ∧ f.length < 2 ^ 32 := by
  constructor
  · intro h
    simp only [nextFrame, Option.bind_eq_some_iff, Prod.exists] at h
    obtain ⟨n, tail, hn, h⟩ := h
    split at h
    · next hle =>
      simp only [Option.some.injEq, Prod.mk.injEq] at h
      obtain ⟨rfl, rfl⟩ := h
      have hlen : (tail.take n.toNat).length = n.toNat := by simp [hle]
      refine ⟨?_, by rw [hlen]; exact n.toNat_lt⟩
      rw [frame, hlen, UInt32.ofNat_toNat, List.append_assoc, List.take_append_drop]
      exact getU32_eq_some.1 hn
    · simp at h
  · rintro ⟨rfl, hf⟩
    exact nextFrame_frame hf rest

/-- Two frames at the front of one byte string are the same frame. -/
theorem frame_append_inj {f g xs ys : Bytes} (hf : f.length < 2 ^ 32) (hg : g.length < 2 ^ 32)
    (h : frame f ++ xs = frame g ++ ys) : f = g ∧ xs = ys := by
  have hx := nextFrame_frame hf xs
  rw [h, nextFrame_frame hg ys, Option.some.injEq, Prod.mk.injEq] at hx
  exact ⟨hx.1.symm, hx.2.symm⟩

theorem length_frame (f : Bytes) : (frame f).length = 4 + f.length := by
  simp [frame]

/-- **Framing is prefix-free.** Frames whose encoding opens a longer
encoding are the first of its frames. -/
theorem encodeFrames_isPre {fs hs : List Bytes} (hf : ∀ f ∈ fs, f.length < 2 ^ 32)
    (hh : ∀ f ∈ hs, f.length < 2 ^ 32) {rest : Bytes} (h : encodeFrames fs ++ rest <+: encodeFrames hs) :
    fs <+: hs := by
  induction fs generalizing hs with
  | nil => exact List.nil_prefix
  | cons f fs ih =>
    cases hs with
    | nil =>
      have := h.length_le
      simp [length_frame] at this
    | cons g hs =>
      obtain ⟨tail, ht⟩ := h
      simp only [encodeFrames_cons, List.append_assoc] at ht
      obtain ⟨rfl, ht⟩ := frame_append_inj (hf f (by simp)) (hh g (by simp)) ht
      have hrest : fs <+: hs :=
        ih (fun f hm => hf f (by simp [hm])) (fun f hm => hh f (by simp [hm]))
          ⟨tail, by simpa [List.append_assoc] using ht⟩
      exact List.prefix_cons_inj f |>.2 hrest

/-! ## All the frames of a byte string -/

theorem length_of_nextFrame {bs f rest : Bytes} (h : nextFrame bs = some (f, rest)) : rest.length < bs.length := by
  rw [(nextFrame_eq_some.1 h).1, List.length_append, length_frame]
  omega

/-- The complete frames at the front, and what is left. -/
def splitFrames (bs : Bytes) : List Bytes × Bytes :=
  match _h : nextFrame bs with
  | none => ([], bs)
  | some (f, rest) => (f :: (splitFrames rest).1, (splitFrames rest).2)
termination_by bs.length
decreasing_by all_goals exact length_of_nextFrame _h

theorem splitFrames_none {bs : Bytes} (h : nextFrame bs = none) : splitFrames bs = ([], bs) := by
  rw [splitFrames]
  split
  · rfl
  next hsome => simp [h] at hsome

theorem splitFrames_some {bs f rest : Bytes} (h : nextFrame bs = some (f, rest)) :
    splitFrames bs = (f :: (splitFrames rest).1, (splitFrames rest).2) := by
  rw [splitFrames]
  split
  next hnone => simp [h] at hnone
  next g tail hsome =>
    obtain ⟨rfl, rfl⟩ : g = f ∧ tail = rest := by simpa using hsome.symm.trans h
    rfl

/-- Induction along a byte string, frame by frame. -/
theorem frames_induction {P : Bytes → Prop} (hnone : ∀ bs, nextFrame bs = none → P bs)
    (hsome : ∀ bs f rest, nextFrame bs = some (f, rest) → P rest → P bs) (bs : Bytes) : P bs :=
  match h : nextFrame bs with
  | none => hnone bs h
  | some (f, rest) => hsome bs f rest h (frames_induction hnone hsome rest)
termination_by bs.length
decreasing_by exact length_of_nextFrame h

/-- Frames put back are the bytes they were read from. -/
theorem splitFrames_bytes (bs : Bytes) : encodeFrames (splitFrames bs).1 ++ (splitFrames bs).2 = bs := by
  induction bs using frames_induction with
  | hnone bs h => rw [splitFrames_none h, encodeFrames_nil, List.nil_append]
  | hsome bs f rest h ih =>
    rw [splitFrames_some h, encodeFrames_cons, List.append_assoc, ih]
    exact (nextFrame_eq_some.1 h).1.symm

/-- What is left holds no complete frame. -/
theorem splitFrames_rest (bs : Bytes) : nextFrame (splitFrames bs).2 = none := by
  induction bs using frames_induction with
  | hnone bs h => rwa [splitFrames_none h]
  | hsome bs f rest h ih => rwa [splitFrames_some h]

theorem splitFrames_short (bs : Bytes) : ∀ f ∈ (splitFrames bs).1, f.length < 2 ^ 32 := by
  induction bs using frames_induction with
  | hnone bs h => simp [splitFrames_none h]
  | hsome bs f rest h ih =>
    rw [splitFrames_some h]
    intro g hg
    rcases List.mem_cons.1 hg with rfl | hg
    · exact (nextFrame_eq_some.1 h).2
    · exact ih g hg

/-- **All of them.** Frames whose encoding stands at the front are the first
of those split off. -/
theorem splitFrames_maximal {bs : Bytes} {fs : List Bytes} (hf : ∀ f ∈ fs, f.length < 2 ^ 32)
    (h : encodeFrames fs <+: bs) : fs <+: (splitFrames bs).1 := by
  induction fs generalizing bs with
  | nil => exact List.nil_prefix
  | cons f fs ih =>
    obtain ⟨tail, rfl⟩ := h
    have hnext : nextFrame (encodeFrames (f :: fs) ++ tail) = some (f, encodeFrames fs ++ tail) := by
      rw [encodeFrames_cons, List.append_assoc, nextFrame_frame (hf f (by simp))]
    rw [splitFrames_some hnext]
    exact (List.prefix_cons_inj f).2 (ih (fun g hg => hf g (by simp [hg])) (List.prefix_append _ _))

/-- Where no frame can be read, the length or the frame is cut off. -/
theorem nextFrame_eq_none {bs : Bytes} :
    nextFrame bs = none ↔ bs.length < 4 ∨ ∃ n rest, bs = putU32 n ++ rest ∧ rest.length < n.toNat := by
  cases hget : getU32 bs with
  | none => simp [nextFrame, hget, getU32_eq_none.1 hget]
  | some got =>
    obtain ⟨n, rest⟩ := got
    have hbytes := getU32_eq_some.1 hget
    have hlong : ¬ bs.length < 4 := by simp [← getU32_eq_none, hget]
    constructor
    · intro h
      refine .inr ⟨n, rest, hbytes, Nat.lt_of_not_le fun hle => ?_⟩
      simp [nextFrame, hget, hle] at h
    · rintro (hshort | ⟨m, tail, hm, hlt⟩)
      · exact absurd hshort hlong
      · simp [nextFrame, hm, Nat.not_le.2 hlt]

end Framing
