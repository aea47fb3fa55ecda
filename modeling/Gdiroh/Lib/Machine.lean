/-
Runs of a machine given by a partial step function: an action is enabled in
a state when `step` answers `some`, and a run is a list of actions each
enabled where it is taken.

A few induction rules carry every result over runs: an invariant of the
steps (`run_invariant`), an invariant of the steps that meet a condition
(`run_invariant_along`), the condition that an invariant needs
(`invariant_iff_along`), and an invariant relating the state to the actions
taken so far (`run_trace`). Another makes a run, from a measure that some
action can always lower (`exists_run_working_off`).
-/
import Mathlib.Data.List.Induction

namespace Machine

variable {σ α : Type*} {step : σ → α → Option σ}

/-- The state after the actions, if each was enabled. -/
def run (step : σ → α → Option σ) : σ → List α → Option σ
  | s, [] => some s
  | s, a :: as => (step s a).bind fun s' => run step s' as

/-- Every action of the list is taken in a state where it meets `G`. -/
def Along (step : σ → α → Option σ) (G : σ → α → Prop) : σ → List α → Prop
  | _, [] => True
  | s, a :: as => G s a ∧ ∀ s', step s a = some s' → Along step G s' as

@[simp] theorem run_nil {s : σ} : run step s [] = some s := rfl

theorem run_cons {s t : σ} {a : α} {as : List α} :
    run step s (a :: as) = some t ↔ ∃ u, step s a = some u ∧ run step u as = some t := by
  simp [run, Option.bind_eq_some_iff]

theorem run_append {s t : σ} {as bs : List α} :
    run step s (as ++ bs) = some t ↔ ∃ u, run step s as = some u ∧ run step u bs = some t := by
  induction as generalizing s with
  | nil => simp
  | cons a as ih =>
    simp only [List.cons_append, run_cons, ih]
    constructor
    · rintro ⟨v, hv, u, hu, ht⟩
      exact ⟨u, ⟨v, hv, hu⟩, ht⟩
    · rintro ⟨u, ⟨v, hv, hu⟩, ht⟩
      exact ⟨v, hv, u, hu, ht⟩

theorem run_concat {s t : σ} {as : List α} {a : α} :
    run step s (as ++ [a]) = some t ↔ ∃ u, run step s as = some u ∧ step u a = some t := by
  simp [run_append, run_cons]

theorem along_append {G : σ → α → Prop} {s u : σ} {as bs : List α} (h : run step s as = some u) :
    Along step G s (as ++ bs) ↔ Along step G s as ∧ Along step G u bs := by
  induction as generalizing s with
  | nil =>
    simp only [run_nil, Option.some.injEq] at h
    subst h
    simp [Along]
  | cons a as ih =>
    obtain ⟨v, hv, hu⟩ := run_cons.1 h
    simp only [List.cons_append, Along, hv, Option.some.injEq, forall_eq', ih hu, and_assoc]

theorem along_of_forall {G : σ → α → Prop} {as : List α} (h : ∀ a ∈ as, ∀ s, G s a) (s : σ) :
    Along step G s as := by
  induction as generalizing s with
  | nil => trivial
  | cons a as ih => exact ⟨h a (by simp) s, fun s' _ => ih (fun b hb => h b (by simp [hb])) s'⟩

theorem Along.and {G H : σ → α → Prop} {s : σ} {as : List α} (hG : Along step G s as) (hH : Along step H s as) :
    Along step (fun s a => G s a ∧ H s a) s as := by
  induction as generalizing s with
  | nil => trivial
  | cons a as ih => exact ⟨⟨hG.1, hH.1⟩, fun s' hs' => ih (hG.2 s' hs') (hH.2 s' hs')⟩

instance decidableAlong {G : σ → α → Prop} [∀ s a, Decidable (G s a)] :
    ∀ (s : σ) (as : List α), Decidable (Along step G s as)
  | _, [] => isTrue trivial
  | s, a :: as =>
    match hs : step s a with
    | none => decidable_of_iff (G s a) (by simp [Along, hs])
    | some s' =>
      have : Decidable (Along step G s' as) := decidableAlong s' as
      decidable_of_iff (G s a ∧ Along step G s' as) (by simp [Along, hs])

/-- **Invariants.** What every step keeps, every run keeps. -/
theorem run_invariant {I : σ → Prop} (hstep : ∀ s a s', I s → step s a = some s' → I s')
    {s t : σ} {as : List α} (h : run step s as = some t) (hs : I s) : I t := by
  induction as generalizing s with
  | nil =>
    simp only [run_nil, Option.some.injEq] at h
    exact h ▸ hs
  | cons a as ih =>
    obtain ⟨u, hu, ht⟩ := run_cons.1 h
    exact ih ht (hstep s a u hs hu)

/-- **Conditional invariants.** What every step meeting `G` keeps, every run
whose steps all meet `G` keeps. -/
theorem run_invariant_along {I : σ → Prop} {G : σ → α → Prop}
    (hstep : ∀ s a s', I s → G s a → step s a = some s' → I s')
    {s t : σ} {as : List α} (h : run step s as = some t) (hG : Along step G s as) (hs : I s) : I t := by
  induction as generalizing s with
  | nil =>
    simp only [run_nil, Option.some.injEq] at h
    exact h ▸ hs
  | cons a as ih =>
    obtain ⟨u, hu, ht⟩ := run_cons.1 h
    exact ih ht (hG.2 u hu) (hstep s a u hs hG.1 hu)

/-- **Conditions alike.** Two conditions that an invariant makes the same at
every step are met along the same runs. -/
theorem along_congr {I : σ → Prop} {G H : σ → α → Prop}
    (hiff : ∀ s a s', I s → step s a = some s' → (G s a ↔ H s a))
    (hstep : ∀ s a s', I s → G s a → step s a = some s' → I s')
    {s t : σ} {as : List α} (h : run step s as = some t) (hs : I s) : Along step G s as ↔ Along step H s as := by
  induction as generalizing s with
  | nil => exact Iff.rfl
  | cons a as ih =>
    obtain ⟨u, hu, ht⟩ := run_cons.1 h
    have hhead := hiff s a u hs hu
    constructor
    · intro hG
      refine ⟨hhead.1 hG.1, fun s' hs' => ?_⟩
      obtain rfl : u = s' := Option.some.inj (hu.symm.trans hs')
      exact (ih ht (hstep s a u hs hG.1 hu)).1 (hG.2 u hu)
    · intro hH
      have hG := hhead.2 hH.1
      refine ⟨hG, fun s' hs' => ?_⟩
      obtain rfl : u = s' := Option.some.inj (hu.symm.trans hs')
      exact (ih ht (hstep s a u hs hG hu)).2 (hH.2 u hu)

/-- An invariant and its condition, where the actions are of some kind. -/
theorem invariant_iff_along_of {I : σ → Prop} {G : σ → α → Prop} {H : α → Prop}
    (hstep : ∀ s a s', I s → H a → step s a = some s' → (I s' ↔ G s a))
    {s t : σ} {as : List α} (h : run step s as = some t) (hH : ∀ a ∈ as, H a) (hs : I s) :
    (∀ bs u, bs <+: as → run step s bs = some u → I u) ↔ Along step G s as := by
  induction as generalizing s with
  | nil =>
    refine iff_of_true (fun bs u hbs hu => ?_) trivial
    rw [List.prefix_nil.1 hbs, run_nil] at hu
    exact Option.some.inj hu ▸ hs
  | cons a as ih =>
    obtain ⟨v, hv, ht⟩ := run_cons.1 h
    have hiff := hstep s a v hs (hH a List.mem_cons_self) hv
    have hrest : ∀ b ∈ as, H b := fun b hb => hH b (List.mem_cons_of_mem a hb)
    constructor
    · intro hall
      have hI : I v := hall [a] v (List.prefix_append [a] as) (run_cons.2 ⟨v, hv, rfl⟩)
      refine ⟨hiff.1 hI, fun v' hv' => ?_⟩
      obtain rfl : v = v' := Option.some.inj (hv.symm.trans hv')
      refine (ih ht hrest hI).1 fun bs u hbs hu => ?_
      exact hall (a :: bs) u (List.cons_prefix_cons.2 ⟨rfl, hbs⟩) (run_cons.2 ⟨v, hv, hu⟩)
    · intro hG bs u hbs hu
      cases bs with
      | nil =>
        rw [run_nil] at hu
        exact Option.some.inj hu ▸ hs
      | cons b bs =>
        obtain ⟨rfl, hbs'⟩ := List.cons_prefix_cons.1 hbs
        obtain ⟨v', hv', hu⟩ := run_cons.1 hu
        obtain rfl : v = v' := Option.some.inj (hv.symm.trans hv')
        exact (ih ht hrest (hiff.2 hG.1)).2 (hG.2 v hv) bs u hbs' hu

/-- **An invariant and its condition.** When in the states of an invariant the
steps that keep it are those that meet a condition, it holds all along the
runs that meet the condition and along no others. -/
theorem invariant_iff_along {I : σ → Prop} {G : σ → α → Prop}
    (hstep : ∀ s a s', I s → step s a = some s' → (I s' ↔ G s a))
    {s t : σ} {as : List α} (h : run step s as = some t) (hs : I s) :
    (∀ bs u, bs <+: as → run step s bs = some u → I u) ↔ Along step G s as :=
  invariant_iff_along_of (H := fun _ => True) (fun s a s' hI _ => hstep s a s' hI) h (fun _ _ => trivial) hs

/-- What an invariant gives at every step, every run gives. -/
theorem along_of_invariant {I : σ → Prop} {G H : σ → α → Prop} (himp : ∀ s a, I s → G s a → H s a)
    (hstep : ∀ s a s', I s → G s a → step s a = some s' → I s') {s : σ} {as : List α} (hs : I s)
    (hG : Along step G s as) : Along step H s as := by
  induction as generalizing s with
  | nil => trivial
  | cons a as ih =>
    exact ⟨himp s a hs hG.1, fun s' hs' => ih (hstep s a s' hs hG.1 hs') (hG.2 s' hs')⟩

/-- **Trace invariants.** `I as s` relates a state to the actions that led
to it; each step extends the actions by one at the end. -/
theorem run_trace {s₀ : σ} {I : List α → σ → Prop} (h₀ : I [] s₀)
    (hstep : ∀ as s a s', run step s₀ as = some s → I as s → step s a = some s' → I (as ++ [a]) s')
    {as : List α} {t : σ} (h : run step s₀ as = some t) : I as t := by
  induction as using List.reverseRecOn generalizing t with
  | nil =>
    simp only [run_nil, Option.some.injEq] at h
    exact h ▸ h₀
  | append_singleton as a ih =>
    obtain ⟨u, hu, ht⟩ := run_concat.1 h
    exact hstep as u a t hu (ih hu) ht

/-- **Working off.** Where an action of some kind can always lower a measure
that is not zero, and keeps `P`, a run of such actions brings it to zero. -/
theorem exists_run_working_off {P : σ → Prop} {H : α → Prop} {μ : σ → Nat}
    (hstep : ∀ s, P s → μ s ≠ 0 → ∃ a s', H a ∧ step s a = some s' ∧ P s' ∧ μ s' < μ s) {s : σ} (hs : P s) :
    ∃ as t, run step s as = some t ∧ (∀ a ∈ as, H a) ∧ P t ∧ μ t = 0 := by
  induction hn : μ s using Nat.strongRecOn generalizing s with
  | ind n ih =>
    by_cases hzero : n = 0
    · exact ⟨[], s, rfl, by simp, hs, hn.trans hzero⟩
    · obtain ⟨a, u, ha, hu, hPu, hlt⟩ := hstep s hs (hn ▸ hzero)
      obtain ⟨as, t, ht, has, hPt, hend⟩ := ih (μ u) (hn ▸ hlt) hPu rfl
      exact ⟨a :: as, t, run_cons.2 ⟨u, hu, ht⟩, List.forall_mem_cons.2 ⟨ha, has⟩, hPt, hend⟩

/-- The action was taken along the run, in a state that meets `P`. -/
def Took (step : σ → α → Option σ) (s₀ : σ) (as : List α) (P : σ → Prop) (a : α) : Prop :=
  ∃ before after s, as = before ++ a :: after ∧ run step s₀ before = some s ∧ P s

theorem Took.concat {s₀ : σ} {as : List α} {P : σ → Prop} {a b : α} (h : Took step s₀ as P a) :
    Took step s₀ (as ++ [b]) P a := by
  obtain ⟨before, after, s, rfl, hs, hP⟩ := h
  exact ⟨before, after ++ [b], s, by simp, hs, hP⟩

theorem Took.last {s₀ s : σ} {as : List α} {P : σ → Prop} {a : α} (h : run step s₀ as = some s) (hP : P s) :
    Took step s₀ (as ++ [a]) P a :=
  ⟨as, [], s, rfl, h, hP⟩

end Machine
