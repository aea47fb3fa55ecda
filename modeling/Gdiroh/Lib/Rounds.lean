/-
A counter that runs from 1 to `m` and starts over. The `k`-th count, from 1
on, is at the place `place m k` of the round `round m k`; before the first,
the place is 0.

Two counts are ordered like their places within a round. Across the end of a
round, when they are less than a round apart, their places are the other way
around.
-/
import Mathlib.Data.Nat.Init

namespace Rounds

variable {m : Nat}

def place (m k : Nat) : Nat := if k = 0 then 0 else (k - 1) % m + 1

def round (m k : Nat) : Nat := (k - 1) / m

theorem place_pos {k : Nat} (hk : 0 < k) : 0 < place m k := by
  unfold place
  split
  · omega
  · omega

/-- One more: the next place, or the first. -/
theorem place_succ (hm : 0 < m) (k : Nat) : place m (k + 1) = if place m k = m then 1 else place m k + 1 := by
  unfold place
  by_cases hk : k = 0
  · subst hk
    simp only [Nat.zero_add, Nat.one_ne_zero, if_false, Nat.sub_self, Nat.zero_mod, if_true]
    split <;> omega
  · have hlt := Nat.mod_lt (k - 1) hm
    have hsucc : k + 1 - 1 = k - 1 + 1 := by omega
    rw [if_neg (by omega), if_neg hk, hsucc, Nat.add_mod]
    by_cases hend : (k - 1) % m + 1 = m
    · rw [if_pos hend]
      by_cases h1 : m = 1
      · subst h1; simp [Nat.mod_one]
      · have : 1 % m = 1 := Nat.mod_eq_of_lt (by omega)
        rw [this, hend, Nat.mod_self]
    · rw [if_neg hend]
      have : 1 % m = 1 := Nat.mod_eq_of_lt (by omega)
      rw [this, Nat.mod_eq_of_lt (by omega)]

/-- A count is its rounds and its place. -/
theorem eq_round_add_place {k : Nat} (hk : 0 < k) : k = m * round m k + place m k := by
  unfold round place
  have := Nat.div_add_mod (k - 1) m
  rw [if_neg (by omega)]
  omega

theorem round_mono {j k : Nat} (h : j ≤ k) : round m j ≤ round m k := Nat.div_le_div_right (by omega)

/-- Within a round. -/
theorem place_sub_place {j k : Nat} (hj : 0 < j) (hjk : j ≤ k) (hr : round m j = round m k) :
    place m k - place m j = k - j ∧ place m j ≤ place m k := by
  have h₁ := eq_round_add_place (m := m) hj
  have h₂ := eq_round_add_place (m := m) (show 0 < k by omega)
  rw [hr] at h₁
  omega

theorem place_le (hm : 0 < m) (k : Nat) : place m k ≤ m := by
  unfold place
  have := Nat.mod_lt (k - 1) hm
  split <;> omega

/-- Across the end of a round, by how much. -/
theorem place_across {j k : Nat} (hj : 0 < j) (hjk : j ≤ k) (hr : round m j ≠ round m k) (hnear : k < j + m) :
    place m j + (k - j) = place m k + m := by
  have h₁ := eq_round_add_place (m := m) hj
  have h₂ := eq_round_add_place (m := m) (show 0 < k by omega)
  have hle := place_le (m := m) (by omega) j
  have hpos := place_pos (m := m) (show 0 < k by omega)
  have hmono := round_mono (m := m) hjk
  -- The later of the two is in the next round.
  have hnot : ¬ round m j + 2 ≤ round m k := by
    intro hle'
    have := Nat.mul_le_mul_left m hle'
    rw [Nat.mul_add] at this
    omega
  have hnext : round m k = round m j + 1 := by omega
  rw [hnext, Nat.mul_add, Nat.mul_one] at h₂
  omega

/-- Across the end of a round. -/
theorem place_lt_place {j k : Nat} (hj : 0 < j) (hjk : j ≤ k) (hr : round m j ≠ round m k) (hnear : k < j + m) :
    place m k < place m j := by
  have := place_across hj hjk hr hnear
  omega

/-- In the first round, a count is its own place. -/
theorem place_of_le {k : Nat} (h : k ≤ m) : place m k = k := by
  unfold place
  split
  · omega
  · rw [Nat.mod_eq_of_lt (by omega)]
    omega

/-- A round later, the place is the same. -/
theorem place_add {k : Nat} (hk : 0 < k) : place m (k + m) = place m k := by
  have hsub : k + m - 1 = k - 1 + m := by omega
  rw [place, place, if_neg (by omega), if_neg (by omega), hsub, Nat.add_mod_right]

/-- Less than a round apart, only the same count is at the same place. -/
theorem eq_of_place_eq {j k : Nat} (hj : 0 < j) (hjk : j ≤ k) (hnear : k < j + m) (hp : place m j = place m k) :
    j = k := by
  by_cases hr : round m j = round m k
  · have := place_sub_place hj hjk hr
    omega
  · have := place_lt_place hj hjk hr hnear
    omega

end Rounds
