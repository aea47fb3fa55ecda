/-
A value that many want and one makes. Whoever calls first makes it, while the
others wait; who gives up while making it leaves that to another; and once it
is there it is there for good.

`Sound` is what the steps keep: at most one has ever been made, and everybody
who has got one has got that one.
-/
import Gdiroh.Lib.Machine

namespace Once

/-- Where a call is. -/
inductive Caller (ν : Type*) where
  | waiting
  | got (v : ν)
  /-- Dropped before it came to an end. -/
  | gone

structure Cell (ν : Type*) where
  value : Option ν := none
  callers : List (Caller ν) := []
  /-- The caller that makes the value. -/
  making : Option Nat := none
  /-- Every value that was made, oldest first. -/
  made : List ν := []

inductive Act (ν : Type*) where
  | call
  /-- A waiting caller gets the value, or goes about making it. -/
  | turn (i : Nat)
  /-- The one that makes it is done. -/
  | make (i : Nat) (v : ν)
  | drop (i : Nat)

namespace Cell

variable {ν : Type*} {c c' : Cell ν}

def place (c : Cell ν) (i : Nat) (caller : Caller ν) : Cell ν := { c with callers := c.callers.set i caller }

def called (c : Cell ν) : Cell ν := { c with callers := c.callers ++ [.waiting] }

def step (c : Cell ν) : Act ν → Option (Cell ν)
  | .call => some c.called
  | .turn i =>
    match c.callers[i]?, c.value, c.making with
    | some .waiting, some v, _ => some (c.place i (.got v))
    | some .waiting, none, none => some { c with making := some i }
    | _, _, _ => none
  | .make i v =>
    if c.making = some i then
      some { c.place i (.got v) with value := some v, making := none, made := c.made ++ [v] }
    else none
  | .drop i =>
    match c.callers[i]? with
    | some .waiting => some { c.place i .gone with making := if c.making = some i then none else c.making }
    | _ => none

/-- A call is dropped, if it has not come to an end. -/
def letGo (c : Cell ν) (i : Nat) : Cell ν := (c.step (.drop i)).getD c

/-- Every step, by what it changes. -/
inductive Stepped (c : Cell ν) : Act ν → Cell ν → Prop
  | called : Stepped c .call c.called
  | got {i v} (hi : c.callers[i]? = some .waiting) (hv : c.value = some v) :
      Stepped c (.turn i) (c.place i (.got v))
  | begun {i} (hi : c.callers[i]? = some .waiting) (hnone : c.value = none) (hfree : c.making = none) :
      Stepped c (.turn i) { c with making := some i }
  | made {i v} (hi : c.making = some i) : Stepped c (.make i v)
      { c.place i (.got v) with value := some v, making := none, made := c.made ++ [v] }
  | dropped (i : Nat) (hi : c.callers[i]? = some .waiting) : Stepped c (.drop i)
      { c.place i .gone with making := if c.making = some i then none else c.making }

theorem step_cases {a : Act ν} (hs : c.step a = some c') : Stepped c a c' := by
  cases a with
  | call =>
    obtain rfl := Option.some.inj hs
    exact .called
  | turn i =>
    simp only [step] at hs
    split at hs
    · next v hi hv =>
      obtain rfl := Option.some.inj hs
      exact .got hi hv
    · next hi hnone hfree =>
      obtain rfl := Option.some.inj hs
      exact .begun hi hnone hfree
    · simp at hs
  | make i v =>
    simp only [step] at hs
    split at hs
    · next hi =>
      obtain rfl := Option.some.inj hs
      exact .made hi
    · simp at hs
  | drop i =>
    simp only [step] at hs
    split at hs
    · next hi =>
      obtain rfl := Option.some.inj hs
      exact .dropped i hi
    · simp at hs

/-- At most one value is ever made, and it is everybody's. -/
structure Sound (c : Cell ν) : Prop where
  once : c.made = c.value.toList
  shared : ∀ (i : Nat) (v : ν), c.callers[i]? = some (.got v) → c.value = some v
  first : ∀ i : Nat, c.making = some i → c.value = none ∧ c.callers[i]? = some .waiting

theorem sound_empty : Sound ({} : Cell ν) := ⟨rfl, by simp, by simp⟩

theorem Sound.le_one (h : c.Sound) : c.made.length ≤ 1 := by
  rw [h.once]
  cases c.value <;> simp

theorem get_place {i j : Nat} {caller caller' : Caller ν} (h : (c.place i caller).callers[j]? = some caller') :
    j = i ∧ caller' = caller ∨ j ≠ i ∧ c.callers[j]? = some caller' := by
  unfold place at h
  rw [List.getElem?_set] at h
  split at h
  · next he =>
    split at h
    · exact .inl ⟨he.symm, (Option.some.inj h).symm⟩
    · simp at h
  · next hne => exact .inr ⟨Ne.symm hne, h⟩

/-- **One step** keeps to the one value. -/
theorem Sound.step {a : Act ν} (h : c.Sound) (hs : c.step a = some c') : c'.Sound := by
  cases step_cases hs with
  | called =>
    refine ⟨h.once, fun i v hi => ?_, fun i hi => ?_⟩
    · unfold called at hi
      rw [List.getElem?_append] at hi
      split at hi
      · exact h.shared i v hi
      · rw [List.getElem?_singleton] at hi
        split at hi <;> simp at hi
    · obtain ⟨hnone, hwaiting⟩ := h.first i hi
      exact ⟨hnone, List.getElem?_append_left (List.getElem?_eq_some_iff.1 hwaiting).1 ▸ hwaiting⟩
  | got hi hv =>
    refine ⟨h.once, fun j v' hj => ?_, fun j hj => ?_⟩
    · rcases get_place hj with ⟨-, he⟩ | ⟨-, hj⟩
      · cases he
        exact hv
      · exact h.shared j v' hj
    · have hnone := (h.first j hj).1
      simp [hv] at hnone
  | begun hi hnone hfree =>
    refine ⟨h.once, h.shared, fun j hj => ?_⟩
    obtain rfl := Option.some.inj hj
    exact ⟨hnone, hi⟩
  | made hi =>
    obtain ⟨hnone, -⟩ := h.first _ hi
    refine ⟨by simp [h.once, hnone], fun j v' hj => ?_, by simp⟩
    rcases get_place hj with ⟨-, he⟩ | ⟨-, hj⟩
    · cases he
      rfl
    · have hv := h.shared j v' hj
      simp [hnone] at hv
  | dropped i hi =>
    refine ⟨h.once, fun j v' hj => ?_, fun j hj => ?_⟩
    · rcases get_place hj with ⟨-, he⟩ | ⟨-, hj⟩
      · cases he
      · exact h.shared j v' hj
    · simp only at hj
      split at hj
      · simp at hj
      · next hne =>
        obtain ⟨hnone, hwaiting⟩ := h.first j hj
        refine ⟨hnone, ?_⟩
        have hij : i ≠ j := fun he => hne (he ▸ hj)
        simp only [place]
        rw [List.getElem?_set_ne hij]
        exact hwaiting

/-- **For good.** A value that is there stays. -/
theorem Sound.value_stays {a : Act ν} {v : ν} (h : c.Sound) (hv : c.value = some v) (hs : c.step a = some c') :
    c'.value = some v := by
  cases step_cases hs with
  | called | got | begun | dropped => exact hv
  | made hi =>
    have hnone := (h.first _ hi).1
    simp [hv] at hnone

theorem letGo_cases (c : Cell ν) (i : Nat) : c.letGo i = c ∨ c.step (.drop i) = some (c.letGo i) := by
  unfold letGo
  cases hs : c.step (.drop i) with
  | none => exact .inl rfl
  | some c' => exact .inr rfl

theorem Sound.called (h : c.Sound) : c.called.Sound := h.step (a := .call) rfl

/-- The value, if there is one, is that of before. -/
def Keeps (c c' : Cell ν) : Prop := ∀ v, c.value = some v → c'.value = some v

theorem Sound.keeps {a : Act ν} (h : c.Sound) (hs : c.step a = some c') : c.Keeps c' := fun _ hv => h.value_stays hv hs

theorem Keeps.refl (c : Cell ν) : c.Keeps c := fun _ => id

theorem Keeps.trans {c'' : Cell ν} (h : c.Keeps c') (h' : c'.Keeps c'') : c.Keeps c'' := fun v hv => h' v (h v hv)

theorem turn_value {i : Nat} (hs : c.step (.turn i) = some c') : c'.value = c.value := by
  cases step_cases hs with
  | got | begun => rfl

theorem make_value {i : Nat} {v : ν} (hs : c.step (.make i v) = some c') : c'.value = some v := by
  cases step_cases hs with
  | made => rfl

theorem letGo_value (c : Cell ν) (i : Nat) : (c.letGo i).value = c.value := by
  rcases letGo_cases c i with he | hs
  · rw [he]
  · generalize c.letGo i = c' at hs ⊢
    cases step_cases hs
    rfl

theorem Sound.letGo (h : c.Sound) (i : Nat) : (c.letGo i).Sound := by
  rcases letGo_cases c i with he | hs
  · rw [he]
    exact h
  · exact h.step hs

end Cell
end Once
