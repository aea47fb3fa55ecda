/-
The ALPN list the endpoint negotiates. `publish_alpns` reads the registry's
keys under the lock and passes them on outside it, so two threads can pass on
their readings in the reverse of the order they read them in. The older one
then stays (`stale_list_stays`), until the next change.

As long as no list is replaced by an older one, the list is the registry's
keys whenever no `register` and no drop is under way (`published_eq_keys`).
-/
import Gdiroh.Dispatch.Routing

namespace Gdiroh.Dispatch
namespace Dispatcher

variable {d d' : Dispatcher}

/-- No `register` and no drop is in progress. -/
def Quiet (d : Dispatcher) : Prop := ∀ change ∈ d.changes, change = .finished

/-- The reading that an action passes to `set_alpns`. -/
def passes (d : Dispatcher) : Act → Option Nat
  | .setAlpns t =>
    match d.changes[t]? with
    | some (.read _ time) => some time
    | _ => none
  | _ => none

/-- `set_alpns` is not called with a reading older than the one it was called
with last. -/
def InOrder (d : Dispatcher) (a : Act) : Prop := ∀ time ∈ d.passes a, d.publishedAt ≤ time

instance (d : Dispatcher) (a : Act) : Decidable (InOrder d a) :=
  inferInstanceAs (Decidable (∀ time ∈ d.passes a, d.publishedAt ≤ time))

/-- Readings from `era` on show the registry as it is. Unless one of them is
published, one is on its way. -/
structure Current (era : Nat) (d : Dispatcher) : Prop where
  begun : era ≤ d.readings + 1
  publishedAt : d.publishedAt ≤ d.readings
  read : ∀ (t : Nat) (alpns : List Alpn) (time : Nat), d.changes[t]? = some (.read alpns time) →
    time ≤ d.readings ∧ (era ≤ time → alpns.Perm d.protocols.keys)
  published : era ≤ d.publishedAt → d.published.Perm d.protocols.keys
  coming : era ≤ d.publishedAt ∨ (∃ t : Nat, d.changes[t]? = some .made) ∨
    ∃ (t : Nat) (alpns : List Alpn) (time : Nat), d.changes[t]? = some (.read alpns time) ∧ era ≤ time

/-- A change of the registry starts an era. -/
theorem Current.change {era : Nat} (h : Current era d) (hchanges : d'.changes = d.changes ++ [.made])
    (hreadings : d'.readings = d.readings) (hpublishedAt : d'.publishedAt = d.publishedAt) :
    Current (d.readings + 1) d' where
  begun := by rw [hreadings]
  publishedAt := by rw [hreadings, hpublishedAt]; exact h.publishedAt
  read t alpns time ht := by
    rw [hchanges] at ht
    rcases Logs.getElem?_concat.1 ht with ht | ⟨-, he⟩
    · have := (h.read t alpns time ht).1
      exact ⟨hreadings ▸ this, fun hle => by omega⟩
    · simp at he
  published hle := by
    have := h.publishedAt
    omega
  coming := .inr (.inl ⟨d.changes.length, by simp [hchanges]⟩)

/-- A step that leaves the registry's keys and the changes alone. -/
theorem Current.same {era : Nat} (h : Current era d) (hkeys : d'.protocols = d.protocols)
    (hchanges : d'.changes = d.changes) (hreadings : d'.readings = d.readings)
    (hpublished : d'.published = d.published) (hpublishedAt : d'.publishedAt = d.publishedAt) : Current era d' where
  begun := by rw [hreadings]; exact h.begun
  publishedAt := by rw [hreadings, hpublishedAt]; exact h.publishedAt
  read := by rw [hchanges, hreadings, hkeys]; exact h.read
  published := by rw [hpublished, hpublishedAt, hkeys]; exact h.published
  coming := by rw [hchanges, hpublishedAt]; exact h.coming

theorem getElem?_setChange {t u : Nat} {old new : Change} (h : d.changes[t]? = some old) :
    (d.setChange t new).changes[u]? = if u = t then some new else d.changes[u]? := by
  have hlt := (List.getElem?_eq_some_iff.1 h).1
  unfold setChange
  by_cases hu : u = t
  · subst hu
    simp [hlt]
  · simp [hu, List.getElem?_set_ne (Ne.symm hu)]

theorem Current.reading {era t : Nat} {alpns : List Alpn} (h : Current era d) (ht : d.changes[t]? = some .made)
    (hkeys : alpns.Perm d.protocols.keys) :
    Current era { d.setChange t (.read alpns (d.readings + 1)) with readings := d.readings + 1 } where
  begun := Nat.le_succ_of_le h.begun
  publishedAt := Nat.le_succ_of_le h.publishedAt
  read u alpns' time hu := by
    rw [getElem?_setChange ht] at hu
    split at hu
    · simp only [Option.some.injEq, Change.read.injEq] at hu
      obtain ⟨rfl, rfl⟩ := hu
      exact ⟨le_rfl, fun _ => hkeys⟩
    · obtain ⟨hle, hperm⟩ := h.read u alpns' time hu
      exact ⟨Nat.le_succ_of_le hle, hperm⟩
  published := h.published
  coming := .inr (.inr ⟨t, alpns, d.readings + 1, by rw [getElem?_setChange ht, if_pos rfl], h.begun⟩)

theorem Current.publishing {era t time : Nat} {alpns : List Alpn} (h : Current era d)
    (ht : d.changes[t]? = some (.read alpns time)) (hle : d.publishedAt ≤ time) :
    Current era { d.setChange t .finished with published := alpns, publishedAt := time } where
  begun := h.begun
  publishedAt := (h.read t alpns time ht).1
  read u alpns' time' hu := by
    rw [getElem?_setChange ht] at hu
    split at hu
    · simp at hu
    · exact h.read u alpns' time' hu
  published := (h.read t alpns time ht).2
  coming := by
    have hkept : ∀ {u : Nat} {change : Change}, d.changes[u]? = some change → u ≠ t →
        (d.setChange t .finished).changes[u]? = some change := by
      intro u change hu hne
      rw [getElem?_setChange ht, if_neg hne, hu]
    rcases h.coming with hera | ⟨u, hu⟩ | ⟨u, alpns', time', hu, hera⟩
    · exact .inl (Nat.le_trans hera hle)
    · refine .inr (.inl ⟨u, hkept hu ?_⟩)
      rintro rfl
      simp [ht] at hu
    · by_cases hut : u = t
      · subst hut
        simp only [ht, Option.some.injEq, Change.read.injEq] at hu
        exact .inl (hu.2 ▸ hera)
      · exact .inr (.inr ⟨u, alpns', time', hkept hu hut, hera⟩)

theorem current_step {a : Act} (h : ∃ era, Current era d) (hG : InOrder d a) (hs : step d a = some d') :
    ∃ era, Current era d' := by
  obtain ⟨era, h⟩ := h
  cases step_cases hs with
  | registered hnew => exact ⟨_, h.change rfl rfl rfl⟩
  | released hr hlive hopened => exact ⟨_, h.change rfl rfl rfl⟩
  | read ht hkeys => exact ⟨era, h.reading ht hkeys⟩
  | published ht => exact ⟨era, h.publishing ht (hG _ (by simp [passes, ht]))⟩
  | @sent i r hi =>
    refine ⟨era, ?_⟩
    unfold send
    dsimp only
    split
    · exact h.same rfl rfl rfl rfl rfl
    · exact h.same rfl rfl rfl rfl rfl
  | _ => exact ⟨era, h.same rfl rfl rfl rfl rfl⟩

/-- **The endpoint negotiates what is registered.** In every run in which no
list is replaced by an older one, whenever no `register` and no drop is in
progress, the list last passed to `set_alpns` is the keys of the registry. -/
theorem published_eq_keys {as : List Act} (h : Machine.run step {} as = some d)
    (hG : Machine.Along step InOrder {} as) (hq : Quiet d) : d.published.Perm d.protocols.keys := by
  have hinit : ∃ era, Current era {} := by
    refine ⟨0, by simp, le_rfl, by simp, fun _ => ?_, .inl le_rfl⟩
    simp
  obtain ⟨era, hcur⟩ := Machine.run_invariant_along (I := fun d => ∃ era, Current era d)
    (fun s a s' hI hG hs => current_step hI hG hs) h hG hinit
  rcases hcur.coming with hera | ⟨t, ht⟩ | ⟨t, alpns, time, ht, -⟩
  · exact hcur.published hera
  · simpa using hq _ (List.mem_of_getElem? ht)
  · simpa using hq _ (List.mem_of_getElem? ht)

/-- A protocol comes and another goes, each published in its turn. -/
theorem published_eq_keys_inTurn :
    let as : List Act := [.register [1], .keys 0 [[1]], .setAlpns 0, .register [2], .release 0,
      .keys 1 [[2]], .keys 2 [[2]], .setAlpns 1, .setAlpns 2]
    ∃ d, Machine.run step {} as = some d ∧ Quiet d ∧ d.published = [[2]] ∧ d.published.Perm d.protocols.keys := by
  intro as
  have hrun : (Machine.run step {} as).map (fun d => (d.changes, d.published)) =
      some ([.finished, .finished, .finished], [[2]]) := by decide +kernel
  obtain ⟨d, hd, he⟩ := Option.map_eq_some_iff.1 hrun
  simp only [Prod.mk.injEq] at he
  have hq : Quiet d := by simp [Quiet, he.1]
  have hG : Machine.Along step InOrder {} as := by decide +kernel
  exact ⟨d, hd, hq, he.2, published_eq_keys hd hG hq⟩

/-- One thread registers while another drops its registration, and the first
passes on its reading last: the endpoint goes on negotiating an ALPN that
nobody holds. -/
theorem stale_list_stays :
    ∃ d, Machine.run step {} [.register [1], .keys 0 [[1]], .setAlpns 0, .register [2], .keys 1 [[2], [1]],
        .release 0, .keys 2 [[2]], .setAlpns 2, .setAlpns 1] = some d ∧
      Quiet d ∧ d.published = [[2], [1]] ∧ d.protocols.keys = [[2]] ∧ ¬ d.published.Perm d.protocols.keys := by
  have hrun : (Machine.run step {} [.register [1], .keys 0 [[1]], .setAlpns 0, .register [2], .keys 1 [[2], [1]],
      .release 0, .keys 2 [[2]], .setAlpns 2, .setAlpns 1]).map (fun d => (d.changes, d.published, d.protocols.keys)) =
      some ([.finished, .finished, .finished], [[2], [1]], [[2]]) := by decide +kernel
  obtain ⟨d, hd, he⟩ := Option.map_eq_some_iff.1 hrun
  simp only [Prod.mk.injEq] at he
  obtain ⟨hchanges, hpublished, hkeys⟩ := he
  refine ⟨d, hd, by simp [Quiet, hchanges], hpublished, hkeys, fun hperm => ?_⟩
  rw [hpublished, hkeys] at hperm
  simpa using hperm.length_eq

end Dispatcher
end Gdiroh.Dispatch
