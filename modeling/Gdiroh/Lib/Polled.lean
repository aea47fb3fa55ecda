/-
Objects that poll a channel. A task sends events into it, the last of them a
final one, and ends; an object takes what has arrived whenever it is drained,
and gives the channel up at a final event. It cannot tell a channel that has
nothing yet from one whose task is gone.

So a task that is dropped before its final event leaves its object polling for
good. `noticed_iff` says that nothing else does.
-/
import Mathlib.Data.List.Basic

namespace Polled

variable {ε β τ : Type*}

/-- A task, and what waits in its channel. -/
structure Producer (ε : Type*) where
  there : Bool
  /-- What the task runs on was stopped: where it next waits, it is dropped. -/
  stopped : Bool := false
  /-- A final event was sent. -/
  ended : Bool
  queue : List ε

/-- What a task can do. -/
inductive Move (ε : Type*) where
  | send (e : ε)
  /-- It ends, after its final event. -/
  | finish
  | drop

namespace Producer

/-- A task that was just spawned. -/
def spawned : Producer ε := { there := true, ended := false, queue := [] }

/-- No task was spawned; the event, if any, is sent in its place. -/
def unspawned (e : Option ε) : Producer ε := { there := false, ended := e.isSome, queue := e.toList }

/-- What the task runs on is stopped. -/
def stop (p : Producer ε) : Producer ε := { p with stopped := true }

variable (final : ε → Bool)

def move (p : Producer ε) : Move ε → Option (Producer ε)
  | .send e =>
    if p.there ∧ p.ended = false then some { p with queue := p.queue ++ [e], ended := final e } else none
  | .finish => if p.there ∧ p.ended then some { p with there := false } else none
  | .drop => if p.there ∧ p.stopped then some { p with there := false } else none

/-- The channel has a final event exactly when one was sent. -/
def Sound (p : Producer ε) : Prop := p.ended = true ↔ ∃ e ∈ p.queue, final e = true

/-- A task that is gone has sent its final event. -/
def Announced (p : Producer ε) : Prop := p.there = false → p.ended = true

/-- The task is gone and nothing waits in the channel. -/
def Silent (p : Producer ε) : Prop := p.there = false ∧ p.queue = []

/-- The move is not a drop before the final event. -/
def Seen (p : Producer ε) : Move ε → Prop
  | .drop => p.ended = true
  | _ => True

instance (p : Producer ε) : ∀ m, Decidable (p.Seen m)
  | .drop => inferInstanceAs (Decidable (_ = true))
  | .send _ | .finish => isTrue trivial

variable {final}

theorem spawned_sound : (spawned : Producer ε).Sound final := by simp [Sound, spawned]

theorem spawned_announced : (spawned : Producer ε).Announced := by simp [Announced, spawned]

theorem unspawned_announced {e : ε} : (unspawned (some e)).Announced := by simp [Announced, unspawned]

theorem unspawned_sound {e : Option ε} (h : ∀ x ∈ e, final x = true) : (unspawned e).Sound final := by
  cases e with
  | none => simp [Sound, unspawned]
  | some x => simp [Sound, unspawned, h x rfl]

theorem move_sound {p p' : Producer ε} {m : Move ε} (h : p.Sound final) (hm : p.move final m = some p') :
    p'.Sound final := by
  cases m with
  | send e =>
    simp only [move] at hm
    split at hm
    · next hg =>
      have hnone : ¬ ∃ x ∈ p.queue, final x = true := fun hx => by simp [h.2 hx] at hg
      rw [← Option.some.inj hm]
      constructor
      · exact fun he => ⟨e, by simp, he⟩
      · rintro ⟨x, hx, hf⟩
        rcases List.mem_append.1 hx with hx | hx
        · exact absurd ⟨x, hx, hf⟩ hnone
        · exact List.mem_singleton.1 hx ▸ hf
    · simp at hm
  | finish | drop =>
    simp only [move] at hm
    split at hm
    · exact Option.some.inj hm ▸ h
    · simp at hm

/-- **One move** leaves a task that is gone announced exactly when it is seen. -/
theorem move_announced {p p' : Producer ε} {m : Move ε} (hm : p.move final m = some p') :
    p'.Announced ↔ p.Seen m := by
  cases m with
  | send e =>
    simp only [move] at hm
    split at hm
    · next hg =>
      refine iff_of_true (fun hgone => ?_) trivial
      rw [← Option.some.inj hm] at hgone
      simp [hg.1] at hgone
    · simp at hm
  | finish =>
    simp only [move] at hm
    split at hm
    · next hg =>
      refine iff_of_true (fun _ => ?_) trivial
      rw [← Option.some.inj hm]
      exact hg.2
    · simp at hm
  | drop =>
    simp only [move] at hm
    split at hm
    · rw [← Option.some.inj hm]
      simp [Announced, Seen]
    · simp at hm

end Producer

/-- An object with a channel, until it has its final event. It is `ticking`
while it is drained on every frame. -/
structure Object (ε β : Type*) where
  channel : Option (Producer ε)
  ticking : Bool
  /-- Its other fields. -/
  own : β

namespace Object

/-- An object for a task's channel. -/
def wrap (ticking : Bool) (p : Producer ε) (own : β) : Object ε β := { channel := some p, ticking, own }

def finished (o : Object ε β) : Object ε β := { o with channel := none, ticking := false }

/-- Everything that waits is taken first, and handled then. -/
def drain (handle : Object ε β → ε → Object ε β) (o : Object ε β) : Object ε β :=
  match o.channel with
  | none => o
  | some p => p.queue.foldl handle { o with channel := some { p with queue := [] } }

/-- The object's task moves. -/
def move (final : ε → Bool) (o : Object ε β) (m : Move ε) : Option (Object ε β) :=
  o.channel.bind fun p => (p.move final m).map fun p' => { o with channel := some p' }

/-- What the object's task runs on is stopped. -/
def stop (o : Object ε β) : Object ε β := { o with channel := o.channel.map Producer.stop }

/-- `handle` gives the channel up at a final event, and not before. -/
def Closes (final : ε → Bool) (handle : Object ε β → ε → Object ε β) : Prop :=
  ∀ o e, (handle o e).channel = (if final e then none else o.channel) ∧
    (handle o e).ticking = (o.ticking && !final e)

def Sound (final : ε → Bool) (o : Object ε β) : Prop :=
  (∀ p ∈ o.channel, p.Sound final) ∧ (o.channel = none → o.ticking = false)

def Announced (o : Object ε β) : Prop := ∀ p ∈ o.channel, p.Announced

def Seen (o : Object ε β) (m : Move ε) : Prop := ∀ p ∈ o.channel, p.Seen m

instance (o : Object ε β) (m : Move ε) : Decidable (o.Seen m) := inferInstanceAs (Decidable (∀ p ∈ o.channel, _))

/-- A task that is gone and has left nothing in the channel is noticed at the
next drain: the channel is given up, and an object without one does not tick. -/
def Noticed (handle : Object ε β → ε → Object ε β) (o : Object ε β) : Prop :=
  (∀ p ∈ o.channel, p.Silent → (o.drain handle).channel = none) ∧
    ((o.drain handle).channel = none → (o.drain handle).ticking = false)

variable {final : ε → Bool} {handle : Object ε β → ε → Object ε β}

theorem foldl_handle (hc : Closes final handle) (queue : List ε) (o : Object ε β) :
    (queue.foldl handle o).channel = (if queue.any final then none else o.channel) ∧
      (queue.foldl handle o).ticking = (o.ticking && !queue.any final) := by
  induction queue generalizing o with
  | nil => simp
  | cons e queue ih =>
    obtain ⟨hchannel, hticking⟩ := hc o e
    rw [List.foldl_cons, (ih (handle o e)).1, (ih (handle o e)).2, hchannel, hticking, List.any_cons]
    cases final e with
    | true => simp
    | false => simp

/-- What a drain leaves: nothing after a final event, an empty channel
otherwise. -/
theorem drain_cases (hc : Closes final handle) {o : Object ε β} {p : Producer ε} (hp : o.channel = some p) :
    (∃ e ∈ p.queue, final e = true) ∧ (o.drain handle).channel = none ∧ (o.drain handle).ticking = false ∨
    (¬ ∃ e ∈ p.queue, final e = true) ∧ (o.drain handle).channel = some { p with queue := [] } := by
  obtain ⟨hchannel, hticking⟩ := foldl_handle hc p.queue { o with channel := some { p with queue := [] } }
  simp only [drain, hp]
  cases hany : p.queue.any final with
  | true =>
    rw [hany] at hchannel hticking
    exact .inl ⟨List.any_eq_true.1 hany, by simpa using hchannel, by simpa using hticking⟩
  | false =>
    rw [hany] at hchannel
    refine .inr ⟨fun hx => ?_, by simpa using hchannel⟩
    simp [List.any_eq_true.2 hx] at hany

theorem drain_sound (hc : Closes final handle) {o : Object ε β} (h : o.Sound final) : (o.drain handle).Sound final := by
  cases hp : o.channel with
  | none =>
    rw [drain, hp]
    exact h
  | some p =>
    rcases drain_cases hc hp with ⟨-, hnone, hticking⟩ | ⟨hno, hsome⟩
    · exact ⟨by simp [hnone], fun _ => hticking⟩
    · refine ⟨fun p' hp' => ?_, by simp [hsome]⟩
      rw [hsome] at hp'
      rw [← Option.some.inj hp']
      have hended : p.ended ≠ true := mt (h.1 p hp).1 hno
      exact iff_of_false hended (by simp)

theorem drain_announced (hc : Closes final handle) {o : Object ε β} (h : o.Announced) : (o.drain handle).Announced := by
  cases hp : o.channel with
  | none =>
    rw [drain, hp]
    exact h
  | some p =>
    intro p' hp'
    rcases drain_cases hc hp with ⟨-, hnone, -⟩ | ⟨-, hsome⟩
    · simp [hnone] at hp'
    · rw [hsome] at hp'
      rw [← Option.some.inj hp']
      exact h p hp

theorem stop_sound {o : Object ε β} (h : o.Sound final) : o.stop.Sound final := by
  refine ⟨fun p hp => ?_, fun hnone => h.2 (Option.map_eq_none_iff.1 hnone)⟩
  obtain ⟨q, hq, rfl⟩ := Option.map_eq_some_iff.1 hp
  exact h.1 q hq

theorem stop_announced {o : Object ε β} (h : o.Announced) : o.stop.Announced := by
  intro p hp
  obtain ⟨q, hq, rfl⟩ := Option.map_eq_some_iff.1 hp
  exact h q hq

theorem wrap_sound {ticking : Bool} {p : Producer ε} {own : β} (h : p.Sound final) :
    (wrap ticking p own).Sound final := by
  refine ⟨fun q hq => ?_, by simp [wrap]⟩
  exact Option.some.inj hq ▸ h

theorem wrap_announced {ticking : Bool} {p : Producer ε} {own : β} (h : p.Announced) :
    (wrap ticking p own).Announced := by
  intro q hq
  exact Option.some.inj hq ▸ h

theorem finished_sound {o : Object ε β} : o.finished.Sound final := ⟨by simp [finished], fun _ => rfl⟩

theorem finished_announced {o : Object ε β} : o.finished.Announced := by simp [Announced, finished]

theorem move_some {o o' : Object ε β} {m : Move ε} (h : o.move final m = some o') :
    ∃ p p', o.channel = some p ∧ p.move final m = some p' ∧ o' = { o with channel := some p' } := by
  obtain ⟨p, hp, hm⟩ := Option.bind_eq_some_iff.1 h
  obtain ⟨p', hp', rfl⟩ := Option.map_eq_some_iff.1 hm
  exact ⟨p, p', hp, hp', rfl⟩

theorem move_sound {o o' : Object ε β} {m : Move ε} (h : o.Sound final) (hm : o.move final m = some o') :
    o'.Sound final := by
  obtain ⟨p, p', hp, hp', rfl⟩ := move_some hm
  refine ⟨fun q hq => ?_, by simp⟩
  exact Option.some.inj hq ▸ Producer.move_sound (h.1 p hp) hp'

theorem move_announced {o o' : Object ε β} {m : Move ε} (hm : o.move final m = some o') :
    o'.Announced ↔ o.Seen m := by
  obtain ⟨p, p', hp, hp', rfl⟩ := move_some hm
  simpa [Announced, Seen, hp] using Producer.move_announced hp'

theorem noticed_of_announced (hc : Closes final handle) {o : Object ε β} (h : o.Sound final) (ha : o.Announced) :
    o.Noticed handle := by
  refine ⟨fun p hp hsilent => ?_, (drain_sound hc h).2⟩
  rcases drain_cases hc hp with ⟨-, hnone, -⟩ | ⟨hno, -⟩
  · exact hnone
  · exact absurd ((h.1 p hp).1 (ha p hp hsilent.1)) hno

/-- **Noticed exactly when announced.** A drain, and the drain after it, give
up the channel of a task that is gone if and only if the task sent its final
event. -/
theorem noticed_iff (hc : Closes final handle) {o : Object ε β} (h : o.Sound final) :
    o.Noticed handle ∧ (o.drain handle).Noticed handle ↔ o.Announced := by
  constructor
  · rintro ⟨-, hnext, -⟩ p hp hgone
    by_contra hended
    rcases drain_cases hc hp with ⟨hfinal, -⟩ | ⟨-, hsome⟩
    · exact hended ((h.1 p hp).2 hfinal)
    · have hnone := hnext _ hsome ⟨hgone, rfl⟩
      rcases drain_cases hc hsome with ⟨⟨e, he, -⟩, -⟩ | ⟨-, hstill⟩
      · simp at he
      · simp [hstill] at hnone
  · intro ha
    exact ⟨noticed_of_announced hc h ha, noticed_of_announced hc (drain_sound hc h) (drain_announced hc ha)⟩

end Object

/-- One of the list changes. -/
def changeAt (l : List τ) (i : Nat) (change : τ → Option τ) : Option (List τ) := (l[i]?.bind change).map (l.set i)

/-- What holds of all of a list holds after the change exactly when it holds
of the one that changed. -/
theorem forall_changeAt {P G : τ → Prop} {l l' : List τ} {i : Nat} {change : τ → Option τ}
    (h : changeAt l i change = some l') (hP : ∀ x ∈ l, P x)
    (hchange : ∀ x x', x ∈ l → change x = some x' → (P x' ↔ G x)) :
    (∀ x ∈ l', P x) ↔ ∀ x ∈ l[i]?, G x := by
  obtain ⟨x', hx', rfl⟩ := Option.map_eq_some_iff.1 h
  obtain ⟨x, hx, hc⟩ := Option.bind_eq_some_iff.1 hx'
  obtain ⟨hi, hget⟩ := List.getElem?_eq_some_iff.1 hx
  have hiff := hchange x x' (List.mem_of_getElem? hx) hc
  rw [hx]
  constructor
  · intro hall y hy
    rw [← Option.some.inj hy]
    exact hiff.1 (hall x' (List.mem_set hi x'))
  · intro hG y hy
    rcases List.mem_or_eq_of_mem_set hy with hy | rfl
    · exact hP y hy
    · exact hiff.2 (hG x rfl)

theorem changeAt_keeps {P : τ → Prop} {l l' : List τ} {i : Nat} {change : τ → Option τ}
    (h : changeAt l i change = some l') (hP : ∀ x ∈ l, P x)
    (hchange : ∀ x x', x ∈ l → change x = some x' → P x') : ∀ x ∈ l', P x := by
  refine (forall_changeAt (G := fun _ => True) h hP fun x x' hx hc => ?_).2 fun _ _ => trivial
  exact iff_of_true (hchange x x' hx hc) trivial

namespace Object

variable {final : ε → Bool} {handle : Object ε β → ε → Object ε β}

/-- What can happen to one of several objects. -/
inductive Act (ε : Type*) where
  | task (i : Nat) (m : Move ε)
  | drain (i : Nat)
  | finished (i : Nat)

def act (final : ε → Bool) (handle : Object ε β → ε → Object ε β) (l : List (Object ε β)) :
    Act ε → Option (List (Object ε β))
  | .task i m => changeAt l i (·.move final m)
  | .drain i => changeAt l i fun o => some (o.drain handle)
  | .finished i => changeAt l i fun o => some o.finished

/-- No task is dropped before its final event. -/
def SeenAt (l : List (Object ε β)) : Act ε → Prop
  | .task i m => ∀ o ∈ l[i]?, o.Seen m
  | _ => True

instance (l : List (Object ε β)) : ∀ a, Decidable (SeenAt l a)
  | .task i m => inferInstanceAs (Decidable (∀ o ∈ l[i]?, o.Seen m))
  | .drain _ | .finished _ => isTrue trivial

theorem act_sound (hc : Closes final handle) {l l' : List (Object ε β)} {a : Act ε} (h : ∀ o ∈ l, o.Sound final)
    (ha : act final handle l a = some l') : ∀ o ∈ l', o.Sound final := by
  cases a with
  | task i m => exact changeAt_keeps ha h fun o o' ho hm => move_sound (h o ho) hm
  | drain i => exact changeAt_keeps ha h fun o o' ho hd => Option.some.inj hd ▸ drain_sound hc (h o ho)
  | finished i => exact changeAt_keeps ha h fun o o' ho hf => Option.some.inj hf ▸ finished_sound

theorem act_announced (hc : Closes final handle) {l l' : List (Object ε β)} {a : Act ε} (h : ∀ o ∈ l, o.Announced)
    (ha : act final handle l a = some l') : (∀ o ∈ l', o.Announced) ↔ SeenAt l a := by
  cases a with
  | task i m => exact forall_changeAt ha h fun o o' ho hm => move_announced hm
  | drain i =>
    refine iff_of_true (changeAt_keeps ha h fun o o' ho hd => ?_) trivial
    exact Option.some.inj hd ▸ drain_announced hc (h o ho)
  | finished i =>
    refine iff_of_true (changeAt_keeps ha h fun o o' ho hf => ?_) trivial
    exact Option.some.inj hf ▸ finished_announced

end Object

end Polled
