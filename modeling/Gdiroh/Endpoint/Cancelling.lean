/-
What becomes of a blob operation when its transfer is dropped, by `cancel` or
with the last reference. The task could only tell by a report that fails, and
it looks at none of them: `let _ = events.send(..)`. So it takes its stream to
the end and tags the blob as if somebody were waiting (`cancelled_goes_on`).

`quits_iff` says when giving up on a transfer stops it all the same: when
after that nothing comes off the stream behind an item that is reported, and
the store has no tag to set.
-/
import Gdiroh.Endpoint.Endings

namespace Gdiroh.Endpoint

open Polled

/-- The tag that was asked for. -/
def Work.tag : Work → Option String
  | .add tag | .fetch _ tag => tag
  | .exportBlob _ | .read _ => none

namespace TransferTask

/-- The tag that a step sets, and the blob it names: the store says that it
did. -/
def tagged (t : TransferTask) : Act → Option (String × String)
  | .kept (.ok _) =>
    match t.phase with
    | .keeping hash => t.work.tag.map fun tag => (tag, hash)
    | _ => none
  | _ => none

/-! ## One step -/

theorem step_work {t t' : TransferTask} {a : Act} (hs : t.step a = some t') : t'.work = t.work := by
  obtain ⟨-, hstep⟩ := step_cases hs
  cases hstep <;> rfl

/-- Short of its end, a task sends when it is given an item to report on, and
at no other time. -/
theorem step_reports {t t' : TransferTask} {a : Act} (hs : t.step a = some t') (hgoing : ¬ t'.gone) :
    t'.sent = t.sent ↔ ∀ item, a = .item (some item) → t.work.reports item = false := by
  obtain ⟨-, hstep⟩ := step_turned hs
  cases hstep with
  | waits ha => exact iff_of_true rfl ha
  | skipped hitem => simp [hitem]
  | told e _ hitem => simp [emit, hitem]
  | ended => exact absurd (.inl rfl) hgoing
  | abandoned => exact absurd (.inr rfl) hgoing

/-- The tag is set when the store says so, if one was asked for. -/
theorem tagged_eq_none {t t' : TransferTask} {a : Act} (hs : t.step a = some t') :
    t.tagged a = none ↔ t.work.tag = none ∨ a ≠ .kept (.ok ()) := by
  cases a with
  | kept outcome =>
    cases outcome with
    | error reason => simp [tagged]
    | ok _ =>
      simp only [step] at hs
      split at hs
      next hash hphase => simp [tagged, hphase]
      · simp at hs
  | _ => simp [tagged]

end TransferTask

/-! ## After the drop -/

namespace WatchedTransfer

/-- The task has tried to report since, and nobody has heard. -/
def Unheard (u v : WatchedTransfer) : Prop := v.object.channel = none ∧ v.task.sent ≠ u.task.sent

/-- A task whose transfer is dropped takes nothing more off its stream once a
report of it has failed, and it sets no tag. -/
structure Quits (u : WatchedTransfer) (after : List (Watched.Act TransferTask.Act)) : Prop where
  stops : ∀ mid item rest v, after = mid ++ .task (.item (some item)) :: rest →
    Machine.run step u mid = some v → ¬ Unheard u v
  untagged : ∀ mid a rest v, after = mid ++ .task a :: rest →
    Machine.run step u mid = some v → v.task.tagged a = none

end WatchedTransfer

/-- Nothing comes off the stream behind an item that is reported, and no tag
was asked for or the store does not come to set it. -/
structure Work.CutShort (work : Work) (after : List (Watched.Act TransferTask.Act)) : Prop where
  last : ∀ mid item rest, after = mid ++ .task (.item (some item)) :: rest → work.reports item = true →
    ∀ next, .task (.item (some next)) ∉ rest
  untagged : work.tag = none ∨ .task (.kept (.ok ())) ∉ after

namespace WatchedTransfer

/-- A dropped transfer has no channel, and what its task has sent since tells
of the items it was given to report on. -/
structure Left (work : Work) (u : WatchedTransfer) (mid : List (Watched.Act TransferTask.Act))
    (v : WatchedTransfer) : Prop where
  channel : v.object.channel = none
  same : v.task.work = work
  grown : u.task.sent <+: v.task.sent
  sent : ¬ v.task.gone → (v.task.sent = u.task.sent ↔
    ∀ item, .task (.item (some item)) ∈ mid → work.reports item = false)

theorem left_step {work : Work} {u v w : WatchedTransfer} {mid : List (Watched.Act TransferTask.Act)}
    {a : Watched.Act TransferTask.Act} (h : Left work u mid v) (hs : step v a = some w) :
    Left work u (mid ++ [a]) w := by
  obtain ⟨hchannel, hmove⟩ := Watched.next_left h.channel hs
  rcases hmove with ⟨b, rfl, ht⟩ | ⟨hno, htask⟩
  · have hgrow := (TransferTask.step_speaks ht).grow
    refine ⟨hchannel, (TransferTask.step_work ht).trans h.same, h.grown.trans hgrow, fun hgoing => ?_⟩
    have hone := TransferTask.step_reports ht hgoing
    rw [h.same] at hone
    have hboth : w.task.sent = u.task.sent ↔ v.task.sent = u.task.sent ∧ w.task.sent = v.task.sent := by
      constructor
      · intro hw
        have hv : v.task.sent = u.task.sent := (h.grown.eq_of_length_le (hw ▸ hgrow.length_le)).symm
        exact ⟨hv, hw.trans hv.symm⟩
      · exact fun ⟨hv, hw⟩ => hw.trans hv
    rw [hboth, h.sent (TransferTask.step_cases ht).1, hone]
    simp only [List.mem_append, List.mem_singleton, Watched.Act.task.injEq, or_imp, forall_and, eq_comm]
  · refine ⟨hchannel, htask ▸ h.same, htask ▸ h.grown, ?_⟩
    have hmem : ∀ item, (.task (.item (some item)) ∈ mid ++ [a]) ↔ .task (.item (some item)) ∈ mid := by
      intro item
      simp [(hno _).symm]
    simpa only [htask, hmem] using h.sent

/-- Where the task stands when it takes a step after the drop. -/
theorem left_run {ticking running : Bool} {work : Work} {before after mid rest : List (Watched.Act TransferTask.Act)}
    {a : TransferTask.Act} {s u t : WatchedTransfer}
    (hbefore : Machine.run step (spawn ticking work running) before = some s) (hleave : step s .leave = some u)
    (hafter : Machine.run step u after = some t) (hsplit : after = mid ++ .task a :: rest) :
    ∃ v w, Machine.run step u mid = some v ∧ v.task.step a = some w ∧ Left work u mid v := by
  have hu : Machine.run step (spawn ticking work running) (before ++ [.leave]) = some u :=
    Machine.run_concat.2 ⟨s, hbefore, hleave⟩
  have hwork : u.task.work = work :=
    Watched.task_run (I := fun t : TransferTask => t.work = work) hu
      (fun _ _ _ h hs => (TransferTask.step_work hs).trans h) (fun _ h => h) (by cases running <;> rfl)
  have hstart : Left work u [] u := ⟨Watched.leave_channel hleave, hwork, List.prefix_refl _, by simp⟩
  rw [hsplit] at hafter
  obtain ⟨v, hv, hrest⟩ := Machine.run_append.1 hafter
  obtain ⟨v', hstep, -⟩ := Machine.run_cons.1 hrest
  obtain ⟨w, hw, -⟩ := Option.map_eq_some_iff.1 hstep
  exact ⟨v, w, hv, hw, Machine.run_trace hstart (fun _ _ _ _ _ h hs => left_step h hs) hv⟩

/-- **Giving up on a transfer** stops its task exactly if nothing comes off
its stream behind an item that is reported, and no tag was asked for or the
store does not come to set it. -/
theorem quits_iff {ticking running : Bool} {work : Work} {before after : List (Watched.Act TransferTask.Act)}
    {s u t : WatchedTransfer} (hbefore : Machine.run step (spawn ticking work running) before = some s)
    (hleave : step s .leave = some u) (hafter : Machine.run step u after = some t) :
    u.Quits after ↔ work.CutShort after := by
  constructor
  · intro h
    constructor
    · intro mid item rest hsplit hitem next hnext
      obtain ⟨between, rest, rfl⟩ := List.append_of_mem hnext
      have hsplit : after = (mid ++ .task (.item (some item)) :: between) ++ .task (.item (some next)) :: rest := by
        simp [hsplit]
      obtain ⟨v, w, hv, hw, hleft⟩ := left_run hbefore hleave hafter hsplit
      refine h.stops _ next rest v hsplit hv ⟨hleft.channel, fun hsent => ?_⟩
      have hquiet := (hleft.sent (TransferTask.step_cases hw).1).1 hsent item (by simp)
      simp [hitem] at hquiet
    · refine or_iff_not_imp_right.2 fun hkept => ?_
      obtain ⟨mid, rest, hsplit⟩ := List.append_of_mem (not_not.1 hkept)
      obtain ⟨v, w, hv, hw, hleft⟩ := left_run hbefore hleave hafter hsplit
      have hnone := (TransferTask.tagged_eq_none hw).1 (h.untagged mid _ rest v hsplit hv)
      rw [hleft.same] at hnone
      exact hnone.resolve_right fun hne => hne rfl
  · intro h
    constructor
    · intro mid item rest v hsplit hv hunheard
      obtain ⟨v', w, hv', hw, hleft⟩ := left_run hbefore hleave hafter hsplit
      obtain rfl : v = v' := Option.some.inj (hv.symm.trans hv')
      refine hunheard.2 ((hleft.sent (TransferTask.step_cases hw).1).2 fun first hfirst => ?_)
      obtain ⟨mid, between, rfl⟩ := List.append_of_mem hfirst
      by_contra hreports
      rw [Bool.not_eq_false] at hreports
      exact h.last mid first (between ++ .task (.item (some item)) :: rest) (by simp [hsplit]) hreports item (by simp)
    · intro mid a rest v hsplit hv
      obtain ⟨v', w, hv', hw, hleft⟩ := left_run hbefore hleave hafter hsplit
      obtain rfl : v = v' := Option.some.inj (hv.symm.trans hv')
      refine (TransferTask.tagged_eq_none hw).2 ?_
      rw [hleft.same]
      refine h.untagged.imp_right fun hno hkept => hno ?_
      simp [hsplit, hkept]

/-- A fetch without a tag, cancelled just before its last item. -/
theorem quits_iff_last : ∃ s u t,
    Machine.run step (spawn true (.fetch "hash" none) true)
      [.task (.opened (.ok ())), .task (.started (.ok ()))] = some s ∧
    step s .leave = some u ∧
    Machine.run step u [.task (.item (some (.progress 5))), .task (.item none)] = some t ∧
    u.Quits [.task (.item (some (.progress 5))), .task (.item none)] := by
  refine ⟨_, _, _, rfl, rfl, rfl, ?_⟩
  have hstart : Machine.run step (spawn true (.fetch "hash" none) true)
      [.task (.opened (.ok ())), .task (.started (.ok ()))] = some _ := rfl
  refine (quits_iff hstart rfl rfl).2 ⟨fun mid item rest hsplit _ next hnext => ?_, .inl rfl⟩
  rcases mid with _ | ⟨first, _ | ⟨second, mid⟩⟩
  · obtain rfl := (List.cons.inj hsplit).2
    simp at hnext
  · simp at hsplit
  · simp at hsplit

/-- A fetch, cancelled before its first item. -/
theorem cancelled_goes_on : ∃ s u v t,
    Machine.run step (spawn true (.fetch "hash" (some "level")) true)
      [.task (.opened (.ok ())), .task (.started (.ok ()))] = some s ∧
    step s .leave = some u ∧
    Machine.run step u [.task (.item (some (.progress 5)))] = some v ∧ Unheard u v ∧
    Machine.run step v [.task (.item (some (.progress 9))), .task (.item none)] = some t ∧
    t.task.tagged (.kept (.ok ())) = some ("level", "hash") ∧ (step t (.task (.kept (.ok ())))).isSome = true ∧
    ¬ u.Quits [.task (.item (some (.progress 5))), .task (.item (some (.progress 9))), .task (.item none),
      .task (.kept (.ok ()))] := by
  refine ⟨_, _, _, _, rfl, rfl, rfl, ⟨rfl, List.cons_ne_nil _ _⟩, rfl, rfl, rfl, fun h => ?_⟩
  exact h.stops [_] _ _ _ rfl rfl ⟨rfl, List.cons_ne_nil _ _⟩

end WatchedTransfer
end Gdiroh.Endpoint
