/-
The process-wide runtime and its leases (`runtime.rs`). Leases are counted,
not told apart: `shutdown` sets the count to zero while leases are still out,
and when one of those is dropped later it counts against the leases taken
since. Dropping it can stop the runtime of a lease that is still held
(`stops_another`).

`kept_of_spared` says that this is all that can go wrong: as long as no lease
from before the last shutdown is dropped while one taken since is held, the
runtime runs exactly while a lease taken since the last shutdown is held.
`lost_of_not_spared` says that nothing less will do.

A lease stands in an object of its own, so the count stays below `usize::MAX`.
-/
import Gdiroh.Endpoint.Handles
import Gdiroh.Lib.Machine

namespace Gdiroh.Endpoint

variable {ρ : Type}

/-- The shared runtime; `ρ` is what tells one runtime from another. -/
structure Shared (ρ : Type) where
  runtime : Option ρ := none
  /-- Live leases. The runtime stops when this reaches zero. -/
  holders : Nat := 0
deriving DecidableEq

namespace Shared

/-- `Lease::acquire`, starting the runtime if it is not there. `built` is what
building it comes to; `none` means that the caller has no lease. -/
def acquire (s : Shared ρ) (built : Option ρ) : Option (Shared ρ) :=
  match s.runtime with
  | some _ => some { s with holders := s.holders + 1 }
  | none => built.map fun runtime => { runtime := some runtime, holders := s.holders + 1 }

/-- A lease is dropped. -/
def drop (s : Shared ρ) : Shared ρ :=
  let s := { s with holders := s.holders - 1 }
  if 0 < s.holders then s else { s with runtime := none }

/-- Stops the runtime regardless of who still holds a lease. -/
def shutdown (_ : Shared ρ) : Shared ρ := { runtime := none, holders := 0 }

end Shared

/-! ## Within the world of an endpoint -/

namespace World

def shared (w : World) : Shared Unit := { runtime := if w.runtime then some () else none, holders := w.holders }

theorem shared_acquire (w : World) (built : Bool) :
    (w.acquire built).map shared = w.shared.acquire (if built then some () else none) := by
  cases hr : w.runtime <;> cases built <;> simp [acquire, Shared.acquire, shared, hr]

theorem shared_release (w : World) : w.release.shared = w.shared.drop := by
  cases hr : w.runtime <;> by_cases h : 0 < w.holders - 1 <;>
    simp [release, Shared.drop, shared, stopRuntime, hr, h]

theorem shared_shutdown (w : World) : w.shutdown.shared = w.shared.shutdown := by
  cases hr : w.runtime <;> simp [shutdown, Shared.shutdown, shared, stopRuntime, hr]

end World

/-! ## Every lease -/

/-- A lease that was given out. -/
structure Lease where
  /-- How many shutdowns came before it. -/
  since : Nat
  /-- The runtime it was given. -/
  given : Option Nat
  live : Bool := true
deriving DecidableEq

/-- The lease is held, and was taken after the last of the shutdowns. -/
def Lease.current (shutdowns : Nat) (lease : Lease) : Bool := lease.live && lease.since == shutdowns

/-- The runtime, with every lease there has been. A runtime is told by the
lease that started it. -/
structure Leases where
  shared : Shared Nat := {}
  leases : List Lease := []
  shutdowns : Nat := 0
deriving DecidableEq

namespace Leases

inductive Call where
  | acquire (built : Bool)
  | drop (lease : Nat)
  | shutdown

def acquire (l : Leases) (built : Bool) : Leases :=
  match l.shared.acquire (if built then some l.leases.length else none) with
  | none => l
  | some shared =>
    { l with shared := shared, leases := l.leases ++ [{ since := l.shutdowns, given := shared.runtime }] }

def step (l : Leases) : Call → Option Leases
  | .acquire built => some (l.acquire built)
  | .drop i =>
    match l.leases[i]? with
    | none => none
    | some lease =>
      -- A lease is dropped once.
      if lease.live then
        some { l with shared := l.shared.drop, leases := l.leases.set i { lease with live := false } }
      else none
  | .shutdown => some { l with shared := l.shared.shutdown, shutdowns := l.shutdowns + 1 }

/-- The runtime is running exactly when a lease taken after the last shutdown
is held. -/
def Kept (l : Leases) : Prop :=
  l.shared.runtime.isSome = true ↔ ∃ lease ∈ l.leases, lease.current l.shutdowns = true

/-- The call does not drop a lease and stop the runtime that another live
lease was given. -/
def Spares (l : Leases) : Call → Prop
  | .drop i => ∀ l' j lease, l.step (.drop i) = some l' → j ≠ i → l.leases[j]? = some lease → lease.live = true →
      lease.given = l.shared.runtime → l'.shared.runtime = l.shared.runtime
  | .acquire _ | .shutdown => True

/-- The call does not drop a lease from before the last shutdown while one
taken since is held. -/
def Spared (l : Leases) : Call → Prop
  | .drop i => ∀ lease ∈ l.leases[i]?, lease.current l.shutdowns = true ∨
      ∀ other ∈ l.leases, other.current l.shutdowns = false
  | .acquire _ | .shutdown => True

instance (l : Leases) : ∀ c, Decidable (l.Spared c)
  | .drop i => inferInstanceAs (Decidable (∀ lease ∈ l.leases[i]?, _))
  | .acquire _ | .shutdown => isTrue trivial

/-! ## The count -/

/-- The count is of the leases taken since the last shutdown, and it is their
runtime that is running. -/
structure Counted (l : Leases) : Prop where
  holders : l.shared.holders = l.leases.countP (Lease.current l.shutdowns)
  running : l.shared.runtime.isSome = true ↔ 0 < l.shared.holders
  since : ∀ lease ∈ l.leases, lease.since ≤ l.shutdowns
  named : ∀ r, l.shared.runtime = some r → r < l.leases.length
  past : ∀ lease ∈ l.leases, ∀ r, lease.given = some r → r < l.leases.length
  given : ∀ lease ∈ l.leases, ∀ r, lease.given = some r → l.shared.runtime = some r → lease.since = l.shutdowns

theorem counted_init : Counted {} := by
  constructor <;> simp

theorem Counted.kept {l : Leases} (h : l.Counted) : l.Kept := by
  rw [Kept, h.running, h.holders, List.countP_pos_iff]

/-- What `acquire` comes to. -/
theorem acquire_cases (l : Leases) (built : Bool) :
    l.acquire built = l ∨ ∃ r, (l.shared.runtime = some r ∨ l.shared.runtime = none ∧ r = l.leases.length) ∧
      l.acquire built = { l with
        shared := { runtime := some r, holders := l.shared.holders + 1 }
        leases := l.leases ++ [{ since := l.shutdowns, given := some r }] } := by
  unfold acquire Shared.acquire
  cases hr : l.shared.runtime with
  | some r => exact .inr ⟨r, .inl rfl, by simp⟩
  | none =>
    cases built with
    | false => exact .inl (by simp)
    | true => exact .inr ⟨l.leases.length, .inr ⟨rfl, rfl⟩, by simp⟩

theorem step_drop {l l' : Leases} {i : Nat} (h : l.step (.drop i) = some l') :
    ∃ lease, l.leases[i]? = some lease ∧ lease.live = true ∧
      l' = { l with shared := l.shared.drop, leases := l.leases.set i { lease with live := false } } := by
  simp only [step] at h
  split at h
  · simp at h
  next lease hlease =>
    split at h
    next hlive =>
      simp only [Option.some.injEq] at h
      exact ⟨lease, hlease, hlive, h.symm⟩
    · simp at h

theorem Counted.acquire {l : Leases} (h : l.Counted) (built : Bool) : (l.acquire built).Counted := by
  rcases l.acquire_cases built with he | ⟨r, hr, he⟩
  · rw [he]
    exact h
  have hlt : r < l.leases.length + 1 := by
    rcases hr with hr | ⟨-, rfl⟩
    · exact Nat.lt_succ_of_lt (h.named r hr)
    · exact Nat.lt_succ_self _
  rw [he]
  refine ⟨?_, by simp, ?_, ?_, ?_, ?_⟩
  · simp [List.countP_append, Lease.current, h.holders]
  · intro lease hlease
    rcases List.mem_append.1 hlease with hlease | hlease
    · exact h.since lease hlease
    · simp [List.mem_singleton.1 hlease]
  · intro q hq
    simp only [Option.some.injEq] at hq
    simpa [← hq] using hlt
  · intro lease hlease q hq
    simp only [List.length_append, List.length_singleton]
    rcases List.mem_append.1 hlease with hlease | hlease
    · exact Nat.lt_succ_of_lt (h.past lease hlease q hq)
    · simp only [List.mem_singleton.1 hlease, Option.some.injEq] at hq
      exact hq ▸ hlt
  · intro lease hlease q hq hrun
    simp only [Option.some.injEq] at hrun
    subst hrun
    rcases List.mem_append.1 hlease with hmem | hmem
    · rcases hr with hr | ⟨-, hr⟩
      · exact h.given lease hmem r hq hr
      · -- A runtime started now is one that no earlier lease was given.
        exact absurd (h.past lease hmem r hq) (by omega)
    · simp [List.mem_singleton.1 hmem]

/-- Dropping a lease takes it, if it is one of now, off the leases of now. -/
theorem countP_dropped {l : Leases} {i : Nat} {lease : Lease} (h : l.leases[i]? = some lease) :
    (l.leases.set i { lease with live := false }).countP (Lease.current l.shutdowns) =
      l.leases.countP (Lease.current l.shutdowns) - if lease.current l.shutdowns then 1 else 0 := by
  obtain ⟨hi, hget⟩ := List.getElem?_eq_some_iff.1 h
  rw [List.countP_set hi, hget]
  simp [Lease.current]

theorem mem_dropped {l : Leases} {i : Nat} {lease other : Lease} (h : l.leases[i]? = some lease)
    (hother : other ∈ l.leases.set i { lease with live := false }) :
    ∃ before ∈ l.leases, before.since = other.since ∧ before.given = other.given := by
  rcases List.mem_or_eq_of_mem_set hother with hmem | rfl
  · exact ⟨other, hmem, rfl, rfl⟩
  · exact ⟨lease, List.mem_of_getElem? h, rfl, rfl⟩

@[simp] theorem drop_holders (s : Shared Nat) : s.drop.holders = s.holders - 1 := by
  simp only [Shared.drop]
  split <;> rfl

theorem drop_running {s : Shared Nat} (h : s.runtime.isSome = true ↔ 0 < s.holders) :
    s.drop.runtime.isSome = true ↔ 0 < s.drop.holders := by
  simp only [Shared.drop]
  split
  next hlt => exact ⟨fun _ => hlt, fun _ => h.2 (Nat.lt_of_lt_of_le hlt (Nat.sub_le _ _))⟩
  next hlt => simpa using hlt

/-- A runtime that a drop leaves is the one there was. -/
theorem drop_runtime {s : Shared Nat} {r : Nat} (h : s.drop.runtime = some r) : s.runtime = some r := by
  simp only [Shared.drop] at h
  split at h
  · exact h
  · simp at h

theorem Counted.drop {l l' : Leases} {i : Nat} (h : l.Counted) (hs : l.Spared (.drop i))
    (he : l.step (.drop i) = some l') : l'.Counted := by
  obtain ⟨lease, hlease, hlive, rfl⟩ := step_drop he
  have hcount := countP_dropped hlease
  have hpos : lease.current l.shutdowns = true → 0 < l.leases.countP (Lease.current l.shutdowns) :=
    fun hc => List.countP_pos_iff.2 ⟨lease, List.mem_of_getElem? hlease, hc⟩
  refine ⟨?_, drop_running h.running, ?_, ?_, ?_, ?_⟩
  · simp only [drop_holders, hcount, h.holders]
    rcases hs lease hlease with hc | hnone
    · simp [hc]
    · -- No lease of now is held, and the count is zero already.
      have hzero : l.leases.countP (Lease.current l.shutdowns) = 0 :=
        List.countP_eq_zero.2 fun other hother => by simp [hnone other hother]
      simp [hzero]
  · intro other hother
    obtain ⟨before, hmem, hsince, -⟩ := mem_dropped hlease hother
    exact hsince ▸ h.since before hmem
  · intro r hr
    rw [List.length_set]
    exact h.named r (drop_runtime hr)
  · intro other hother r hr
    rw [List.length_set]
    obtain ⟨before, hmem, -, hgiven⟩ := mem_dropped hlease hother
    exact h.past before hmem r (hgiven.trans hr)
  · intro other hother r hr hrun
    obtain ⟨before, hmem, hsince, hgiven⟩ := mem_dropped hlease hother
    exact hsince ▸ h.given before hmem r (hgiven.trans hr) (drop_runtime hrun)

theorem Counted.shutdown {l : Leases} (h : l.Counted) :
    Counted { l with shared := l.shared.shutdown, shutdowns := l.shutdowns + 1 } := by
  refine ⟨?_, by simp [Shared.shutdown], ?_, by simp [Shared.shutdown], h.past, by simp [Shared.shutdown]⟩
  · refine (List.countP_eq_zero.2 fun lease hlease => ?_).symm
    have := h.since lease hlease
    simp [Lease.current]
    omega
  · intro lease hlease
    exact Nat.le_succ_of_le (h.since lease hlease)

theorem Counted.step {l l' : Leases} {c : Call} (h : l.Counted) (hs : l.Spared c) (he : l.step c = some l') :
    l'.Counted := by
  cases c with
  | acquire built =>
    simp only [Leases.step, Option.some.injEq] at he
    exact he ▸ h.acquire built
  | drop i => exact h.drop hs he
  | shutdown =>
    simp only [Leases.step, Option.some.injEq] at he
    exact he ▸ h.shutdown

/-- A live lease of the running runtime is one of now; dropping another leaves
the count above zero. -/
theorem Counted.spares {l : Leases} {c : Call} (h : l.Counted) (hs : l.Spared c) : l.Spares c := by
  cases c with
  | acquire built => trivial
  | shutdown => trivial
  | drop i =>
    intro l' j lease he hj hlease hlive hgiven
    cases hr : l.shared.runtime with
    | none =>
      obtain ⟨dropped, -, -, rfl⟩ := step_drop he
      simp [Shared.drop, hr]
    | some r =>
      have hmem := List.mem_of_getElem? hlease
      have hcurrent : lease.current l.shutdowns = true := by
        simp [Lease.current, hlive, h.given lease hmem r (hgiven.trans hr) hr]
      have hcounted := h.drop hs he
      obtain ⟨dropped, hdropped, -, rfl⟩ := step_drop he
      have hrest : 0 < (l.leases.set i { dropped with live := false }).countP (Lease.current l.shutdowns) := by
        refine List.countP_pos_iff.2 ⟨lease, List.mem_of_getElem? (i := j) ?_, hcurrent⟩
        rw [List.getElem?_set_ne (Ne.symm hj), hlease]
      rw [← hcounted.holders] at hrest
      obtain ⟨r', hr'⟩ := Option.isSome_iff_exists.1 (hcounted.running.2 hrest)
      rw [hr', ← hr]
      exact (drop_runtime hr').symm

/-! ## Over runs -/

/-- **The runtime of a lease.** In every run in which no lease from before the
last shutdown is dropped while one taken since is held, the runtime is running
exactly when a lease taken since the last shutdown is held, and no drop stops
the runtime that another live lease was given. -/
theorem kept_of_spared {as : List Call} (hs : Machine.Along step Spared {} as) :
    (∀ bs u, bs <+: as → Machine.run step {} bs = some u → u.Kept) ∧ Machine.Along step Spares {} as := by
  have hstep : ∀ l c l', Counted l → Spared l c → step l c = some l' → Counted l' :=
    fun l c l' hl hc he => hl.step hc he
  constructor
  · rintro bs u ⟨cs, rfl⟩ hu
    have hbs := ((Machine.along_append hu).1 hs).1
    exact (Machine.run_invariant_along hstep hu hbs counted_init).kept
  · exact Machine.along_of_invariant (fun l c hl hc => hl.spares hc) hstep counted_init hs

/-- A lease from before a shutdown is dropped before the next one is taken. -/
theorem kept_of_spared_shutdown :
    (Machine.run step {} [.acquire true, .shutdown, .drop 0, .acquire true, .drop 1]).isSome = true ∧
      Machine.Along step Spares {} [.acquire true, .shutdown, .drop 0, .acquire true, .drop 1] :=
  ⟨by decide, (kept_of_spared (by decide)).2⟩

/-- **A lease that is not kept.** One lease is taken, the runtime is shut
down, a second lease is taken and the first dropped. -/
theorem stops_another :
    ¬ ∀ as t, Machine.run step {} as = some t → t.Kept ∧ Machine.Along step Spares {} as := by
  intro h
  have := (h [.acquire true, .shutdown, .acquire true, .drop 0] _ rfl).1
  revert this
  unfold Kept
  decide

/-! ## Nothing less will do -/

/-- With fewer leases counted than there are, dropping leases of now one by
one stops the runtime under the last of them. -/
theorem lost_of_miscounted {n : Nat} {l : Leases} (hn : l.shared.holders = n)
    (hrun : l.shared.runtime.isSome = true ↔ 0 < l.shared.holders)
    (hless : l.shared.holders < l.leases.countP (Lease.current l.shutdowns)) :
    ∃ cs t, Machine.run step l cs = some t ∧ ¬ t.Kept := by
  induction n generalizing l with
  | zero =>
    refine ⟨[], l, rfl, fun hkept => ?_⟩
    have hsome := hrun.1 (hkept.2 (List.countP_pos_iff.1 (by omega)))
    omega
  | succ n ih =>
    obtain ⟨lease, hmem, hc⟩ := List.countP_pos_iff.1 (Nat.lt_of_le_of_lt (Nat.zero_le _) hless)
    obtain ⟨i, hi⟩ := List.mem_iff_getElem?.1 hmem
    have hlive : lease.live = true := by
      simp only [Lease.current, Bool.and_eq_true] at hc
      exact hc.1
    have hcount := countP_dropped hi
    rw [if_pos hc] at hcount
    have hstep : l.step (.drop i) =
        some { l with shared := l.shared.drop, leases := l.leases.set i { lease with live := false } } := by
      simp [step, hi, hlive]
    obtain ⟨cs, t, ht, hlost⟩ := ih (l := { l with
        shared := l.shared.drop
        leases := l.leases.set i { lease with live := false } })
      (by simp [hn]) (drop_running hrun) (by simp only [drop_holders, hcount]; omega)
    exact ⟨.drop i :: cs, t, Machine.run_cons.2 ⟨_, hstep, ht⟩, hlost⟩

/-- **A run that is lost.** Once a lease from before the last shutdown is
dropped while one taken since is held, the runtime can be stopped under a
lease that is held by dropping others of now. -/
theorem lost_of_not_spared {l t : Leases} {as : List Call} (hl : l.Counted) (h : Machine.run step l as = some t)
    (hs : ¬ Machine.Along step Spared l as) :
    ∃ bs cs u, bs <+: as ∧ Machine.run step l (bs ++ cs) = some u ∧ ¬ u.Kept := by
  induction as generalizing l with
  | nil => exact absurd trivial hs
  | cons c as ih =>
    obtain ⟨v, hv, ht⟩ := Machine.run_cons.1 h
    by_cases hc : l.Spared c
    · have hrest : ¬ Machine.Along step Spared v as := by
        intro hrest
        refine hs ⟨hc, fun v' hv' => ?_⟩
        obtain rfl : v = v' := Option.some.inj (hv.symm.trans hv')
        exact hrest
      obtain ⟨bs, cs, u, hbs, hu, hlost⟩ := ih (hl.step hc hv) ht hrest
      exact ⟨c :: bs, cs, u, List.cons_prefix_cons.2 ⟨rfl, hbs⟩, Machine.run_cons.2 ⟨v, hv, hu⟩, hlost⟩
    · cases c with
      | acquire built => exact absurd trivial hc
      | shutdown => exact absurd trivial hc
      | drop i =>
        obtain ⟨lease, hlease, -, rfl⟩ := step_drop hv
        simp only [Spared, hlease, Option.mem_def, Option.some.injEq, forall_eq', not_or, not_forall,
          Bool.not_eq_true, Bool.not_eq_false] at hc
        obtain ⟨hold, other, hother, hc⟩ := hc
        have hpos := List.countP_pos_iff.2 ⟨other, hother, hc⟩
        have hcount := countP_dropped hlease
        rw [if_neg (by simp [hold])] at hcount
        have hholders := hl.holders
        obtain ⟨cs, u, hu, hlost⟩ := lost_of_miscounted rfl (drop_running hl.running)
          (l := { l with shared := l.shared.drop, leases := l.leases.set i { lease with live := false } })
          (by simp only [drop_holders, hcount]; omega)
        exact ⟨[.drop i], cs, u, List.prefix_append [_] as, Machine.run_cons.2 ⟨_, hv, hu⟩, hlost⟩

end Leases
end Gdiroh.Endpoint
