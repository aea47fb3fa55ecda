/-
Lists that grow at their end: logs, and registries in which an entry is known
by its place. An entry keeps its place for good, and may be replaced there.
-/
import Mathlib.Data.List.Basic

namespace Logs

variable {α : Type*} {l l' : List α} {a b c : α} {i j : Nat}

/-- One more entry. -/
theorem getElem?_concat : (l ++ [a])[j]? = some b ↔ l[j]? = some b ∨ j = l.length ∧ a = b := by
  rcases Nat.lt_trichotomy j l.length with hlt | rfl | hgt
  · simp [List.getElem?_append_left hlt, Nat.ne_of_lt hlt]
  · simp
  · have hold : l[j]? = none := List.getElem?_eq_none (Nat.le_of_lt hgt)
    have hnew : (l ++ [a])[j]? = none := List.getElem?_eq_none (by rw [List.length_append]; exact hgt)
    simp [hold, hnew, Nat.ne_of_gt hgt]

/-- What was there is there. -/
theorem getElem?_grown (h : l <+: l') (hj : l[j]? = some a) : l'[j]? = some a := by
  obtain ⟨more, rfl⟩ := h
  exact (List.getElem?_append_left (List.getElem?_eq_some_iff.1 hj).1).trans hj

/-- At a place nothing changes, or nothing was there. -/
theorem getElem?_or_none (h : l <+: l') (j : Nat) : l'[j]? = l[j]? ∨ l[j]? = none := by
  cases hj : l[j]? with
  | none => exact .inr rfl
  | some a => exact .inl (getElem?_grown h hj)

/-- An entry is replaced. -/
theorem getElem?_set (hi : l[i]? = some b) : (l.set i a)[j]? = some c ↔ i = j ∧ a = c ∨ i ≠ j ∧ l[j]? = some c := by
  by_cases hij : i = j
  · subst hij
    simp [List.getElem?_set_self (List.getElem?_eq_some_iff.1 hi).1]
  · simp [List.getElem?_set_ne hij, hij]

/-! ## In order -/

variable {R : α → α → Prop}

theorem pairwise_concat : (l ++ [a]).Pairwise R ↔ l.Pairwise R ∧ ∀ x ∈ l, R x a := by
  simp [List.pairwise_append]

/-- With a transitive relation, the last entry stands for all. -/
theorem pairwise_concat_last [IsTrans α R] :
    (l ++ [a]).Pairwise R ↔ l.Pairwise R ∧ ∀ x ∈ l.getLast?, R x a := by
  rw [pairwise_concat]
  refine and_congr_right fun hl => ⟨fun hall x hx => hall x (List.mem_of_getLast? hx), fun hlast x hx => ?_⟩
  rcases List.eq_nil_or_concat l with rfl | ⟨before, b, rfl⟩
  · simp at hx
  · rw [List.concat_eq_append] at hl hlast hx
    have hb : R b a := hlast b (by simp)
    rcases List.mem_append.1 hx with hx | hx
    · exact Trans.trans ((pairwise_concat.1 hl).2 x hx) hb
    · exact List.mem_singleton.1 hx ▸ hb

/-! ## The last that counts -/

section
variable {β : Type*} {f : α → Option β} {d : β}

/-- The value that the last entry that has one gives, or else `d`. -/
def latest (f : α → Option β) (d : β) (l : List α) : β := (l.filterMap f).getLast?.getD d

@[simp] theorem latest_nil : latest f d [] = d := rfl

theorem latest_concat : latest f d (l ++ [a]) = (f a).getD (latest f d l) := by
  cases h : f a with
  | none => simp [latest, h]
  | some b => simp [latest, h]

end
end Logs
