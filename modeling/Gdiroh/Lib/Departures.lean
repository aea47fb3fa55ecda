/-
Members registered under keys, whose departures are reported by key. A member
that goes is reported once, by whoever watches it; the report waits in a queue,
and when its turn comes the key is cleared.

Who takes in a report cannot see whom it is about. It is enough that no key is
given twice: then a key leads to its member until the member's own report has
been taken in, and to nobody afterwards (`Books.held`).
-/
import Mathlib.Data.List.Nodup
import Mathlib.Data.List.Basic

namespace Departures

variable {α κ : Type*}

theorem nodup_concat {l : List κ} {k : κ} (h : l.Nodup) (hk : k ∉ l) : (l ++ [k]).Nodup := by
  refine List.nodup_append.2 ⟨h, List.nodup_singleton k, fun x hx y hy => ?_⟩
  rw [List.mem_singleton.1 hy]
  exact fun he => hk (he ▸ hx)

/-- The registrations, the member that each key leads to, the keys whose
reports wait, and the members that were reported. -/
structure Books (registered : List (α × κ)) (holder : κ → Option α) (waiting : List κ) (reported : α → Prop) :
    Prop where
  members : (registered.map (·.1)).Nodup
  keys : (registered.map (·.2)).Nodup
  held : ∀ a k, (a, k) ∈ registered → (holder k = some a ↔ ¬ (reported a ∧ k ∉ waiting))
  known : ∀ k a, holder k = some a → (a, k) ∈ registered
  waits : waiting.Nodup
  raised : ∀ k ∈ waiting, ∃ a, (a, k) ∈ registered ∧ reported a
  listed : ∀ a, reported a → ∃ k, (a, k) ∈ registered

namespace Books

variable {registered : List (α × κ)} {holder : κ → Option α} {waiting : List κ} {reported : α → Prop}
  {a b : α} {k l : κ}

/-- A key is one member's. -/
theorem member_unique (h : Books registered holder waiting reported) (ha : (a, k) ∈ registered)
    (hb : (b, k) ∈ registered) : a = b :=
  congrArg Prod.fst (List.inj_on_of_nodup_map h.keys ha hb rfl)

/-- A member has one key. -/
theorem key_unique (h : Books registered holder waiting reported) (ha : (a, k) ∈ registered)
    (hb : (a, l) ∈ registered) : k = l :=
  congrArg Prod.snd (List.inj_on_of_nodup_map h.members ha hb rfl)

theorem nobody : Books ([] : List (α × κ)) (fun _ => none) [] (fun _ => False) where
  members := List.nodup_nil
  keys := List.nodup_nil
  held := by simp
  known := by simp
  waits := List.nodup_nil
  raised := by simp
  listed := by simp

/-- A member goes, and its watcher reports it. -/
theorem report (h : Books registered holder waiting reported) (ha : (a, k) ∈ registered) (hno : ¬ reported a) :
    Books registered holder (waiting ++ [k]) (fun b => b = a ∨ reported b) where
  members := h.members
  keys := h.keys
  held := by
    intro b l hb
    rw [h.held b l hb]
    by_cases he : b = a
    · subst he
      obtain rfl := h.key_unique hb ha
      simp [hno]
    · have hl : l ≠ k := fun hl => he (h.member_unique hb (hl ▸ ha))
      simp [he, hl]
  known := h.known
  waits := by
    refine nodup_concat h.waits fun hk => ?_
    obtain ⟨b, hb, hgone⟩ := h.raised k hk
    exact hno (h.member_unique hb ha ▸ hgone)
  raised := by
    intro l hl
    rcases List.mem_append.1 hl with hl | hl
    · obtain ⟨b, hb, hgone⟩ := h.raised l hl
      exact ⟨b, hb, .inr hgone⟩
    · obtain rfl := List.mem_singleton.1 hl
      exact ⟨a, ha, .inl rfl⟩
  listed := by
    rintro b (rfl | hb)
    · exact ⟨k, ha⟩
    · exact h.listed b hb

variable [DecidableEq κ]

/-- A new member, under a new key. -/
theorem register (h : Books registered holder waiting reported) (ha : ∀ l, (a, l) ∉ registered)
    (hk : ∀ b, (b, k) ∉ registered) :
    Books (registered ++ [(a, k)]) (fun l => if l = k then some a else holder l) waiting reported where
  members := by
    rw [List.map_append]
    refine nodup_concat h.members fun hm => ?_
    obtain ⟨⟨b, l⟩, hb, rfl⟩ := List.mem_map.1 hm
    exact ha l hb
  keys := by
    rw [List.map_append]
    refine nodup_concat h.keys fun hm => ?_
    obtain ⟨⟨b, l⟩, hb, rfl⟩ := List.mem_map.1 hm
    exact hk b hb
  held := by
    intro b l hb
    rcases List.mem_append.1 hb with hb | hb
    · have hl : l ≠ k := fun he => hk b (he ▸ hb)
      rw [if_neg hl]
      exact h.held b l hb
    · obtain ⟨rfl, rfl⟩ := Prod.mk.inj (List.mem_singleton.1 hb)
      refine iff_of_true (if_pos rfl) fun hgone => ?_
      obtain ⟨l, hl⟩ := h.listed b hgone.1
      exact ha l hl
  known := by
    intro l b hb
    split at hb
    · next he =>
      obtain rfl := Option.some.inj hb
      exact List.mem_append_right _ (by simp [he])
    · exact List.mem_append_left _ (h.known l b hb)
  waits := h.waits
  raised := fun l hl => (h.raised l hl).imp fun b hb => ⟨List.mem_append_left _ hb.1, hb.2⟩
  listed := fun b hb => (h.listed b hb).imp fun l hl => List.mem_append_left _ hl

/-- The next report is taken in. -/
theorem clear (h : Books registered holder (k :: waiting) reported) :
    Books registered (fun l => if l = k then none else holder l) waiting reported where
  members := h.members
  keys := h.keys
  held := by
    intro b l hb
    obtain ⟨a, ha, hgone⟩ := h.raised k List.mem_cons_self
    by_cases he : l = k
    · subst he
      obtain rfl := h.member_unique ha hb
      simp [hgone, (List.nodup_cons.1 h.waits).1]
    · rw [if_neg he, h.held b l hb]
      simp [he]
  known := by
    intro l b hb
    split at hb
    · simp at hb
    · exact h.known l b hb
  waits := (List.nodup_cons.1 h.waits).2
  raised := fun l hl => h.raised l (List.mem_cons_of_mem k hl)
  listed := h.listed

end Books
end Departures
