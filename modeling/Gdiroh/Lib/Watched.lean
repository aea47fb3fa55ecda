/-
A task behind an object that polls its channel. The task is any machine that
keeps what it has sent; the object takes events in batches and gives the
channel up at a final one, or when it is told to.

`own_eq`: what an object comes to is what it makes of the events sent so far,
up to some point. So where only the last event sent can be final, only the
last one handled can be (`Ends.isPre`).
-/
import Gdiroh.Lib.Machine
import Gdiroh.Lib.Polled

namespace Polled

variable {ε β τ α : Type*}

/-- Only the last event can be final. -/
def Ends (final : ε → Bool) (events : List ε) : Prop := ∀ e ∈ events.dropLast, final e = false

namespace Ends

variable {final : ε → Bool} {events before : List ε}

/-- One more event, after others that are not final. -/
theorem concat (h : ∀ e ∈ events, final e = false) (e : ε) : Ends final (events ++ [e]) := by
  intro x hx
  rw [List.dropLast_concat] at hx
  exact h x hx

theorem isPre (h : Ends final events) (hpre : before <+: events) : Ends final before := by
  obtain ⟨rest, rfl⟩ := hpre
  intro e he
  cases rest with
  | nil =>
    rw [List.append_nil] at h
    exact h e he
  | cons x rest =>
    refine h e ?_
    rw [List.dropLast_append_of_ne_nil (List.cons_ne_nil x rest)]
    exact List.mem_append_left _ (List.dropLast_subset _ he)

/-- No two different events are final. -/
theorem unique (h : Ends final events) {x y : ε} (hx : x ∈ events) (hy : y ∈ events) (hfx : final x = true)
    (hfy : final y = true) : x = y := by
  have hne : events ≠ [] := List.ne_nil_of_mem hx
  have hlast : ∀ {z}, z ∈ events → final z = true → z = events.getLast hne := by
    intro z hz hfz
    rw [← List.dropLast_append_getLast hne] at hz
    rcases List.mem_append.1 hz with hz | hz
    · simp [h z hz] at hfz
    · exact List.mem_singleton.1 hz
  rw [hlast hx hfx, hlast hy hfy]

/-- It is only a matter of which events are final. -/
theorem iff_map : Ends final events ↔ Ends id (events.map final) := by
  unfold Ends
  rw [← List.map_dropLast, List.forall_mem_map]
  rfl

end Ends

/-! ## Tasks that end -/

section
variable {final : ε → Bool} {step : τ → α → Option τ} {sent : τ → List ε} {gone : τ → Prop}

/-- A step sends nothing and stays gone, or sends one event before it is gone,
and is gone if the event was final. -/
def Speaks (final : ε → Bool) (sent : τ → List ε) (gone : τ → Prop) (t t' : τ) : Prop :=
  sent t' = sent t ∧ (gone t → gone t') ∨
    ¬ gone t ∧ ∃ e, sent t' = sent t ++ [e] ∧ (final e = true → gone t')

theorem Speaks.grow {t t' : τ} (h : Speaks final sent gone t t') : sent t <+: sent t' := by
  rcases h with ⟨he, -⟩ | ⟨-, e, he, -⟩
  · exact he ▸ List.prefix_refl _
  · exact he ▸ List.prefix_append _ _

/-- Only the last event of a task is final, and none before it is gone. -/
def Ending (final : ε → Bool) (sent : τ → List ε) (gone : τ → Prop) (t : τ) : Prop :=
  Ends final (sent t) ∧ (¬ gone t → ∀ e ∈ sent t, final e = false)

theorem Speaks.ending {t t' : τ} (hs : Speaks final sent gone t t') (h : Ending final sent gone t) :
    Ending final sent gone t' := by
  rcases hs with ⟨he, hover⟩ | ⟨hnot, e, he, hover⟩
  · rw [Ending, he]
    exact ⟨h.1, fun hn => h.2 fun ho => hn (hover ho)⟩
  · rw [Ending, he]
    refine ⟨Ends.concat (h.2 hnot) e, fun hn x hx => ?_⟩
    rcases List.mem_append.1 hx with hx | hx
    · exact h.2 hnot x hx
    · rw [List.mem_singleton.1 hx, ← Bool.not_eq_true]
      exact fun hf => hn (hover hf)

/-- **Ending once.** Of a task whose steps speak so, the last event is the
only final one, however it runs. -/
theorem ending_run (hspeaks : ∀ t a t', step t a = some t' → Speaks final sent gone t t') {t₀ t : τ} {as : List α}
    (hrun : Machine.run step t₀ as = some t) (h : Ending final sent gone t₀) : Ending final sent gone t :=
  Machine.run_invariant (I := Ending final sent gone) (fun _ _ _ h hs => (hspeaks _ _ _ hs).ending h) hrun h

end

/-! ## The object in front -/

/-- An object and the task behind it. -/
structure Watched (τ ε β : Type*) where
  task : τ
  object : Object ε β

namespace Watched

inductive Act (α : Type*) where
  | task (a : α)
  /-- The object takes what waits. -/
  | drain
  /-- The object gives its channel up. -/
  | leave

/-- What arrives in the channel, if the object still has it. -/
def arrive (final : ε → Bool) (o : Object ε β) (events : List ε) : Object ε β :=
  { o with channel := o.channel.map fun p =>
      { p with queue := p.queue ++ events, ended := p.ended || events.any final } }

section
variable (final : ε → Bool) (step : τ → α → Option τ) (sent : τ → List ε) (drop : τ → τ)
  (handle : Object ε β → ε → Object ε β)

/-- The object changes; its handle on the task goes with the channel. -/
def become (w : Watched τ ε β) (o : Object ε β) : Watched τ ε β :=
  { task := if w.object.channel.isSome ∧ o.channel.isNone then drop w.task else w.task, object := o }

def next (w : Watched τ ε β) : Act α → Option (Watched τ ε β)
  | .task a => (step w.task a).map fun t =>
    { task := t, object := arrive final w.object ((sent t).drop (sent w.task).length) }
  | .drain => some (w.become drop (w.object.drain handle))
  | .leave => some (w.become drop w.object.finished)

end

/-- A new object for a task, which may have sent something. -/
def wrap (ticking : Bool) (task : τ) (sent : List ε) (there ended : Bool) (own : β) : Watched τ ε β :=
  { task, object := Object.wrap ticking { there, ended, queue := sent } own }

/-- The object has handled what was sent up to some point, and while it has a
channel the rest waits there. -/
def Reads (sent : τ → List ε) (fold : β → ε → β) (start : β) (w : Watched τ ε β) : Prop :=
  ∃ seen, w.object.own = seen.foldl fold start ∧ seen <+: sent w.task ∧
    ∀ p ∈ w.object.channel, seen ++ p.queue = sent w.task

section
variable {final : ε → Bool} {step : τ → α → Option τ} {sent : τ → List ε} {drop : τ → τ}
  {handle : Object ε β → ε → Object ε β} {fold : β → ε → β} {start : β}

theorem foldl_own (hown : ∀ o e, (handle o e).own = fold o.own e) (queue : List ε) (o : Object ε β) :
    (queue.foldl handle o).own = queue.foldl fold o.own := by
  induction queue generalizing o with
  | nil => rfl
  | cons e queue ih => rw [List.foldl_cons, List.foldl_cons, ih, hown]

theorem reads_wrap {task : τ} (ticking there ended : Bool) :
    Reads sent fold start (wrap ticking task (sent task) there ended start) := by
  refine ⟨[], rfl, List.nil_prefix, fun p hp => ?_⟩
  rw [← Option.some.inj hp]
  rfl

/-- The task sends. -/
theorem Reads.arrive {w : Watched τ ε β} (h : Reads sent fold start w) {t : τ} (hgrow : sent w.task <+: sent t) :
    Reads sent fold start { task := t, object := arrive final w.object ((sent t).drop (sent w.task).length) } := by
  obtain ⟨seen, hown, hseen, hrest⟩ := h
  refine ⟨seen, hown, hseen.trans hgrow, fun p hp => ?_⟩
  obtain ⟨q, hq, rfl⟩ := Option.map_eq_some_iff.1 hp
  obtain ⟨new, hnew⟩ := hgrow
  dsimp only
  rw [← List.append_assoc, hrest q hq, ← hnew, List.drop_left]

/-- The object changes, and the channel goes or is empty. -/
theorem Reads.become {w : Watched τ ε β} (hdrop : ∀ t, sent (drop t) = sent t) {o : Object ε β} (seen : List ε)
    (hown : o.own = seen.foldl fold start) (hseen : seen <+: sent w.task)
    (hrest : ∀ p ∈ o.channel, seen ++ p.queue = sent w.task) : Reads sent fold start (w.become drop o) := by
  have hsent : sent (w.become drop o).task = sent w.task := by
    unfold Watched.become
    dsimp only
    split
    · exact hdrop _
    · rfl
  exact ⟨seen, hown, hsent ▸ hseen, fun p hp => by rw [hsent]; exact hrest p hp⟩

theorem reads_step (hgrow : ∀ t a t', step t a = some t' → sent t <+: sent t') (hdrop : ∀ t, sent (drop t) = sent t)
    (hown : ∀ o e, (handle o e).own = fold o.own e) (hcloses : Object.Closes final handle) {w w' : Watched τ ε β}
    {a : Act α} (h : Reads sent fold start w) (hs : next final step sent drop handle w a = some w') :
    Reads sent fold start w' := by
  cases a with
  | task a =>
    obtain ⟨t, ht, rfl⟩ := Option.map_eq_some_iff.1 hs
    exact h.arrive (hgrow _ _ _ ht)
  | drain =>
    obtain rfl := Option.some.inj hs
    obtain ⟨seen, hseenown, hseen, hrest⟩ := h
    cases hp : w.object.channel with
    | none =>
      refine Reads.become hdrop seen ?_ hseen ?_
      · rw [Object.drain, hp]
        exact hseenown
      · rw [Object.drain, hp]
        exact hrest
    | some p =>
      have hall : seen ++ p.queue = sent w.task := hrest p hp
      refine Reads.become hdrop (seen ++ p.queue) ?_ (hall ▸ List.prefix_refl _) fun q hq => ?_
      · rw [Object.drain, hp, List.foldl_append, ← hseenown]
        exact foldl_own hown _ _
      · rcases Object.drain_cases hcloses hp with ⟨-, hnone, -⟩ | ⟨-, hsome⟩
        · simp [hnone] at hq
        · rw [hsome] at hq
          rw [← Option.some.inj hq, List.append_nil]
          exact hall
  | leave =>
    obtain rfl := Option.some.inj hs
    obtain ⟨seen, hseenown, hseen, -⟩ := h
    exact Reads.become hdrop seen hseenown hseen (by simp [Object.finished])

theorem reads_run (fold : β → ε → β) {task : τ} {ticking there ended : Bool} {as : List (Act α)} {w : Watched τ ε β}
    (hrun : Machine.run (next final step sent drop handle) (wrap ticking task (sent task) there ended start) as = some w)
    (hgrow : ∀ t a t', step t a = some t' → sent t <+: sent t') (hdrop : ∀ t, sent (drop t) = sent t)
    (hown : ∀ o e, (handle o e).own = fold o.own e) (hcloses : Object.Closes final handle) :
    Reads sent fold start w :=
  Machine.run_invariant (I := Reads sent fold start)
    (fun _ _ _ h hs => reads_step hgrow hdrop hown hcloses h hs) hrun (reads_wrap ticking there ended)

/-- **What an object comes to** is what it makes of the events sent so far, up
to some point. -/
theorem own_eq (fold : β → ε → β) {task : τ} {ticking there ended : Bool} {as : List (Act α)} {w : Watched τ ε β}
    (hrun : Machine.run (next final step sent drop handle) (wrap ticking task (sent task) there ended start) as = some w)
    (hgrow : ∀ t a t', step t a = some t' → sent t <+: sent t') (hdrop : ∀ t, sent (drop t) = sent t)
    (hown : ∀ o e, (handle o e).own = fold o.own e) (hcloses : Object.Closes final handle) :
    ∃ seen, w.object.own = seen.foldl fold start ∧ seen <+: sent w.task := by
  obtain ⟨seen, hseenown, hseen, -⟩ := reads_run fold hrun hgrow hdrop hown hcloses
  exact ⟨seen, hseenown, hseen⟩

/-- What handling keeps as long as no event is final, an object keeps as long
as it has its channel. -/
theorem open_run {I : β → Prop} {w w' : Watched τ ε β} {as : List (Act α)}
    (hrun : Machine.run (next final step sent drop handle) w as = some w')
    (hfold : ∀ own e, final e = false → I own → I (fold own e)) (hown : ∀ o e, (handle o e).own = fold o.own e)
    (hcloses : Object.Closes final handle) (h : w.object.channel.isSome = true → I w.object.own) :
    w'.object.channel.isSome = true → I w'.object.own := by
  have hqueue : ∀ (queue : List ε) own, (∀ e ∈ queue, final e = false) → I own → I (queue.foldl fold own) := by
    intro queue
    induction queue with
    | nil => exact fun _ _ h => h
    | cons e queue ih =>
      intro own hall h
      exact ih _ (fun x hx => hall x (List.mem_cons_of_mem e hx)) (hfold own e (hall e List.mem_cons_self) h)
  refine Machine.run_invariant (I := fun w : Watched τ ε β => w.object.channel.isSome = true → I w.object.own)
    (fun w a w' h hs => ?_) hrun h
  cases a with
  | task a =>
    obtain ⟨t, -, rfl⟩ := Option.map_eq_some_iff.1 hs
    exact fun hsome => h (by simpa [arrive] using hsome)
  | drain =>
    obtain rfl := Option.some.inj hs
    cases hp : w.object.channel with
    | none => simp [become, Object.drain, hp]
    | some p =>
      intro hsome
      rcases Object.drain_cases hcloses hp with ⟨-, hnone, -⟩ | ⟨hno, -⟩
      · simp [become, hnone] at hsome
      · have hdrained : (w.object.drain handle).own = p.queue.foldl fold w.object.own := by
          rw [Object.drain, hp]
          exact foldl_own hown _ _
        change I (w.object.drain handle).own
        rw [hdrained]
        exact hqueue _ _ (fun e he => by simpa using fun hf => hno ⟨e, he, hf⟩) (h (by simp [hp]))
  | leave =>
    obtain rfl := Option.some.inj hs
    simp [become, Object.finished]

/-- What the task keeps, it keeps behind an object. -/
theorem task_run {I : τ → Prop} {w w' : Watched τ ε β} {as : List (Act α)}
    (hrun : Machine.run (next final step sent drop handle) w as = some w')
    (hstep : ∀ t a t', I t → step t a = some t' → I t') (hdrop : ∀ t, I t → I (drop t)) (h : I w.task) : I w'.task := by
  have hbecome : ∀ (w : Watched τ ε β) o, I w.task → I (w.become drop o).task := by
    intro w o hw
    unfold become
    dsimp only
    split
    · exact hdrop _ hw
    · exact hw
  refine Machine.run_invariant (I := fun w : Watched τ ε β => I w.task) (fun w a w' hw hs => ?_) hrun h
  cases a with
  | task a =>
    obtain ⟨t, ht, rfl⟩ := Option.map_eq_some_iff.1 hs
    exact hstep _ _ _ hw ht
  | drain =>
    obtain rfl := Option.some.inj hs
    exact hbecome w _ hw
  | leave =>
    obtain rfl := Option.some.inj hs
    exact hbecome w _ hw

theorem leave_channel {w w' : Watched τ ε β} (hs : next final step sent drop handle w .leave = some w') :
    w'.object.channel = none := by
  obtain rfl := Option.some.inj hs
  rfl

/-- An object that has given its channel up stays without one, and only the
task goes on. -/
theorem next_left {w w' : Watched τ ε β} {a : Act α} (hleft : w.object.channel = none)
    (hs : next final step sent drop handle w a = some w') :
    w'.object.channel = none ∧ ((∃ b, a = .task b ∧ step w.task b = some w'.task) ∨
      (∀ b, a ≠ .task b) ∧ w'.task = w.task) := by
  have hbecome : ∀ o : Object ε β, (w.become drop o).task = w.task := by
    intro o
    simp [become, hleft]
  cases a with
  | task b =>
    obtain ⟨t, ht, rfl⟩ := Option.map_eq_some_iff.1 hs
    exact ⟨by simp [arrive, hleft], .inl ⟨b, rfl, ht⟩⟩
  | drain =>
    obtain rfl := Option.some.inj hs
    refine ⟨?_, .inr ⟨by simp, hbecome _⟩⟩
    simp [become, Object.drain, hleft]
  | leave =>
    obtain rfl := Option.some.inj hs
    exact ⟨rfl, .inr ⟨by simp, hbecome _⟩⟩

end
end Watched
end Polled
