/-
Queues served from the front. A machine does many things; at some of its steps
something is put at the end of a queue it keeps, at some the one in front is
taken and served, and what comes of it is recorded elsewhere in the state.

`run_served`: in every run, what was put is what was served and then what
waits, in that order; and what each step keeps of the ones served so far, the
run keeps.
-/
import Gdiroh.Lib.Watched

namespace Served

variable {σ α κ : Type*} {step : σ → α → Option σ} {waiting : σ → List κ} {puts : α → List κ}

/-- One step: some are put at the end, or the one in front is served. `Q` says
what has come of the ones served. -/
inductive Serves (waiting : σ → List κ) (Q : List κ → σ → Prop) (served new : List κ) (s s' : σ) : Prop
  | put (hwaiting : waiting s' = waiting s ++ new) (hkept : Q served s')
  | serve (c : κ) (hnew : new = []) (hwaiting : waiting s = c :: waiting s') (hkept : Q (served ++ [c]) s')

/-- **First come, first served.** -/
theorem run_served (waiting : σ → List κ) (puts : α → List κ) (Q : List κ → σ → Prop) {s₀ t : σ} {as : List α}
    (hrun : Machine.run step s₀ as = some t)
    (hstep : ∀ served s a s', Q served s → step s a = some s' → Serves waiting Q served (puts a) s s')
    (hwaiting : waiting s₀ = []) (hQ : Q [] s₀) : ∃ served, as.flatMap puts = served ++ waiting t ∧ Q served t := by
  refine Machine.run_trace (I := fun as t => ∃ served, as.flatMap puts = served ++ waiting t ∧ Q served t)
    ⟨[], by simp [hwaiting], hQ⟩ (fun as s a s' _ ih hs => ?_) hrun
  obtain ⟨served, hputs, hserved⟩ := ih
  rw [List.flatMap_append, List.flatMap_singleton, hputs]
  cases hstep served s a s' hserved hs with
  | put hw hkept => exact ⟨served, by rw [hw, List.append_assoc], hkept⟩
  | serve c hnew hw hkept => exact ⟨served ++ [c], by simp [hnew, hw], hkept⟩

/-! ## A task that serves, behind an object -/

open Polled

variable {ε β : Type*} {final : ε → Bool} {sent : σ → List ε} {drop : σ → σ}
  {handle : Object ε β → ε → Object ε β}

/-- What is put to the task. -/
def behind (puts : α → List κ) : Watched.Act α → List κ
  | .task a => puts a
  | .drain | .leave => []

/-- The object's own steps put nothing and serve nothing. -/
theorem Serves.behind {Q : List κ → σ → Prop} {served : List κ} {w w' : Watched σ ε β} {a : Watched.Act α}
    (hstep : ∀ a s', step w.task a = some s' → Serves waiting Q served (puts a) w.task s')
    (hdrop : waiting (drop w.task) = waiting w.task ∧ (Q served w.task → Q served (drop w.task)))
    (hQ : Q served w.task) (hs : Watched.next final step sent drop handle w a = some w') :
    Serves (fun w : Watched σ ε β => waiting w.task) (fun served w => Q served w.task) served
      (Served.behind puts a) w w' := by
  have hbecome : ∀ o, Serves (fun w : Watched σ ε β => waiting w.task) (fun served w => Q served w.task) served []
      w (w.become drop o) := by
    intro o
    unfold Watched.become
    split
    · exact .put (by simpa using hdrop.1) (hdrop.2 hQ)
    · exact .put (by simp) hQ
  cases a with
  | task a =>
    obtain ⟨t, ht, rfl⟩ := Option.map_eq_some_iff.1 hs
    cases hstep a t ht with
    | put hw hkept => exact .put hw hkept
    | serve c hnew hw hkept => exact .serve c hnew hw hkept
  | drain =>
    obtain rfl := Option.some.inj hs
    exact hbecome _
  | leave =>
    obtain rfl := Option.some.inj hs
    exact hbecome _

end Served
