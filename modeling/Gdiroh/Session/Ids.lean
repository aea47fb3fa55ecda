/-
What a peer id denotes. A hosting session gives its connections the ids 2,
3, and so on up to `i32::MAX`, and then starts over at 2 without a look at
its links; a loss is reported by id alone. So after `ids` accepts the next
connection gets the id of the first, and when that one is still linked its
link is replaced, and its loss, later, removes the other's link
(`id_taken`).

`denotes_iff` says exactly when an id denotes one connection: when every
connection is gone from the links by the time its id comes around again.
-/
import Gdiroh.Session.Authority
import Gdiroh.Lib.Logs
import Gdiroh.Lib.Rounds

namespace Gdiroh.Session

/-- How many ids there are for clients. -/
def ids : Nat := 2 ^ 31 - 2

/-- The losses among the messages, in order. -/
def losses (internal : List Internal) : List Int32 := internal.filterMap fun
  | .lost peer => some peer
  | .control _ => none

/-- A hosting session, with whose watchers raised the losses that wait. -/
structure Watch where
  host : Host := {}
  raised : List Connection := []

namespace Watch

def step (w : Watch) (a : Host.Action) : Option Watch :=
  (w.host.step a).map fun host =>
    { host
      raised :=
        match a with
        | .watch c => w.raised ++ [c]
        | .lost _ _ => w.raised.tail
        | _ => w.raised }

/-- An accept gives an id that no linked peer has, and a loss takes away no
link but that of the connection whose watcher raised it. -/
def Denotes (w : Watch) : Host.Action → Prop
  | .accept _ _ => firstClientId ≤ w.host.nextId ∧ w.host.nextId ∉ w.host.state.links
  | .lost peer _ => ∀ c, w.host.state.connOf peer = some c → w.raised.head? = some c
  | _ => True

/-- At an accept, the connection accepted `ids` accepts before is not linked
any more. -/
def Freed (w : Watch) : Host.Action → Prop
  | .accept _ _ => ∀ j c peer, j + ids = w.host.state.readers.length →
      w.host.state.readers[j]? = some (c, peer) → w.host.state.connOf peer ≠ some c
  | _ => True

end Watch

/-! ## The ids in turn -/

theorem followingId_max : followingId Int32.maxValue = firstClientId := by decide

/-- The id that the accept number `k`, from 1 on, gives. -/
def IsId (k : Nat) (id : Int32) : Prop := id.toInt = Rounds.place ids k + 1

theorem IsId.unique {k : Nat} {p q : Int32} (hp : IsId k p) (hq : IsId k q) : p = q :=
  Int32.toInt_inj.1 (hp.trans hq.symm)

theorem IsId.first : IsId 1 firstClientId := by
  unfold IsId
  decide

theorem IsId.following {k : Nat} {id : Int32} (hk : 0 < k) (h : IsId k id) : IsId (k + 1) (followingId id) := by
  have hpos := Rounds.place_pos (m := ids) hk
  unfold IsId at h ⊢
  rw [Rounds.place_succ (by decide)]
  have hle := id.toInt_lt
  by_cases hend : Rounds.place ids k = ids
  · have hmax : id = Int32.maxValue := Int32.toInt_inj.1 (by rw [h, hend]; rfl)
    rw [if_pos hend, hmax, followingId_max]
    rfl
  · have hids : ids = 2 ^ 31 - 2 := rfl
    rw [if_neg hend, toInt_followingId (by omega) (by omega), h]
    omega

theorem IsId.ge {k : Nat} {id : Int32} (hk : 0 < k) (h : IsId k id) : firstClientId ≤ id := by
  have hpos := Rounds.place_pos (m := ids) hk
  rw [Int32.le_iff_toInt_le, h, show firstClientId.toInt = 2 from rfl]
  omega

namespace Watch

/-! ## What every step leaves -/

/-- What the ids depend on: the links, the readers, the counter, the
watchers and the losses. -/
structure Same (h h' : Host) : Prop where
  connOf : h'.state.connOf = h.state.connOf
  readers : h'.state.readers = h.state.readers
  nextId : h'.nextId = h.nextId
  watched : h'.watched = h.watched
  losses : losses h'.internal = losses h.internal

/-- Everything but an accept, a watcher's report and a loss leaves them. -/
theorem same_step {h h' : Host} {a : Host.Action} (hs : h.step a = some h')
    (ha : match a with
      | .accept _ _ | .watch _ | .lost _ _ => False
      | _ => True) : Same h h' := by
  cases a with
  | accept c existing => exact ha.elim
  | watch c => exact ha.elim
  | lost peer others => exact ha.elim
  | send limits keys target channel mode data =>
    simp only [Host.step] at hs
    split at hs
    · have hm := State.send_same h.state limits keys target channel mode data
      rw [← Option.some.inj hs]
      exact ⟨hm.connOf, hm.readers, rfl, rfl, rfl⟩
    · simp at hs
  | disconnect peer =>
    have hm := State.dropLink_same h.state peer
    rw [← Option.some.inj hs]
    exact ⟨hm.connOf, hm.readers, rfl, rfl, rfl⟩
  | apply control =>
    simp only [Host.step] at hs
    split at hs
    · next c rest hint =>
      split at hs
      · have hw := State.apply_wire h.state c
        rw [← Option.some.inj hs]
        exact ⟨hw.connOf, hw.readers, rfl, rfl, by rw [hint]; rfl⟩
      · simp at hs
    · simp at hs
  | arrive b =>
    simp only [Host.step, Option.map_eq_some_iff, Prod.exists] at hs
    obtain ⟨arrivals, rep, -, rfl⟩ := hs
    cases rep with
    | none => exact ⟨rfl, rfl, rfl, rfl, rfl⟩
    | some rep =>
      cases rep with
      | packet p => exact ⟨rfl, rfl, rfl, rfl, rfl⟩
      | control c => exact ⟨rfl, rfl, rfl, rfl, by simp [Host.report, Session.losses, List.filterMap_append]⟩

/-! ## The invariant -/

/-- The ids go out in turn. A link is that of one of the last `ids`
connections; a connection is linked until the loss its watcher raised is
handled, and there is only one such loss. -/
structure Turned (w : Watch) : Prop where
  next : IsId (w.host.state.readers.length + 1) w.host.nextId
  given : ∀ j c p, w.host.state.readers[j]? = some (c, p) → IsId (j + 1) p
  linked : ∀ p c, w.host.state.connOf p = some c →
    ∃ j, w.host.state.readers[j]? = some (c, p) ∧ w.host.state.readers.length ≤ j + ids
  kept : ∀ c p, (c, p) ∈ w.host.state.readers →
    w.host.state.connOf p = some c ∨ c ∈ w.host.watched ∧ c ∉ w.raised
  raised : List.Forall₂ (fun p c => (c, p) ∈ w.host.state.readers) (losses w.host.internal) w.raised
  once : w.raised.Nodup
  watched : ∀ c ∈ w.raised, c ∈ w.host.watched

theorem turned_init : Turned {} where
  next := IsId.first
  given := by simp [State.hosting]
  linked := by simp [State.hosting, State.connOf]
  kept := by simp [State.hosting]
  raised := .nil
  once := .nil
  watched := by simp

theorem Turned.of_same {w : Watch} {h' : Host} (h : Turned w) (hs : Same w.host h') : Turned { w with host := h' } where
  next := by rw [hs.readers, hs.nextId]; exact h.next
  given := by rw [hs.readers]; exact h.given
  linked := by rw [hs.readers, hs.connOf]; exact h.linked
  kept := by rw [hs.readers, hs.connOf, hs.watched]; exact h.kept
  raised := by rw [hs.readers, hs.losses]; exact h.raised
  once := h.once
  watched := by rw [hs.watched]; exact h.watched

/-- A linked peer with the id that is next is `ids` accepts old. -/
theorem Turned.linked_next {w : Watch} (h : Turned w) {c : Connection} (hc : w.host.state.connOf w.host.nextId = some c) :
    ∃ j, w.host.state.readers[j]? = some (c, w.host.nextId) ∧ j + ids = w.host.state.readers.length := by
  obtain ⟨j, hj, hnear⟩ := h.linked _ _ hc
  refine ⟨j, hj, ?_⟩
  have hlt := (List.getElem?_eq_some_iff.1 hj).1
  by_contra hne
  have hplace : (Rounds.place ids (j + 1) : Int) + 1 = Rounds.place ids (w.host.state.readers.length + 1) + 1 :=
    (h.given j c _ hj).symm.trans h.next
  have := Rounds.eq_of_place_eq (m := ids) (show 0 < j + 1 by omega)
    (show j + 1 ≤ w.host.state.readers.length + 1 by omega) (by omega) (by omega)
  omega

/-- The connection accepted `ids` accepts ago has the id that is next. -/
theorem Turned.id_again {w : Watch} (h : Turned w) {j : Nat} {c : Connection} {p : Int32}
    (hj : w.host.state.readers[j]? = some (c, p)) (hlen : j + ids = w.host.state.readers.length) :
    p = w.host.nextId := by
  refine (h.given j c p hj).unique ?_
  have hnext := h.next
  unfold IsId at hnext ⊢
  rwa [← hlen, Nat.add_right_comm, Rounds.place_add (by omega)] at hnext

/-- A loss that is handled was raised by the watcher of one connection. If
anything is linked by its id, it is that connection. -/
theorem Turned.lost_linked {w : Watch} (h : Turned w) {peer : Int32} {rest : List Internal}
    (hint : w.host.internal = .lost peer :: rest) :
    ∃ c cs, w.raised = c :: cs ∧ List.Forall₂ (fun p c => (c, p) ∈ w.host.state.readers) (losses rest) cs ∧
      w.host.state.connOf peer = some c := by
  have hraised := h.raised
  have hlosses : losses w.host.internal = peer :: losses rest := by rw [hint]; rfl
  rw [hlosses, List.forall₂_cons_left_iff] at hraised
  obtain ⟨c, cs, hc, hcs, heq⟩ := hraised
  refine ⟨c, cs, heq, hcs, ?_⟩
  rcases h.kept c peer hc with hl | ⟨-, hn⟩
  · exact hl
  · exact absurd (by simp [heq]) hn

/-- **One step.** In such a state the step is right exactly when the id it
gives is free again. -/
theorem Turned.denotes_iff_freed {w w' : Watch} {a : Host.Action} (h : Turned w) (hs : w.step a = some w') :
    w.Denotes a ↔ w.Freed a := by
  cases a with
  | accept c existing =>
    constructor
    · rintro ⟨-, hfree⟩ j d p hlen hj hp
      obtain rfl := h.id_again hj hlen
      exact hfree (State.mem_links_iff.2 ⟨d, hp⟩)
    · intro hfree
      refine ⟨h.next.ge (by omega), fun hm => ?_⟩
      obtain ⟨d, hd⟩ := State.mem_links_iff.1 hm
      obtain ⟨j, hj, hlen⟩ := h.linked_next hd
      exact hfree j d _ hlen hj hd
  | lost peer others =>
    refine iff_of_true (fun d hd => ?_) trivial
    simp only [step, Host.step, Option.map_eq_some_iff] at hs
    obtain ⟨host, hs, -⟩ := hs
    split at hs
    · next p rest hint =>
      split at hs
      · next hp =>
        obtain ⟨c, cs, heq, -, hc⟩ := h.lost_linked (hp.1 ▸ hint)
        rw [hd] at hc
        rw [heq, hc]
        rfl
      · simp at hs
    · simp at hs
  | _ => exact Iff.rfl

/-- An accept whose id is free. -/
theorem Turned.accept {w : Watch} (h : Turned w) {c : Connection} {existing : List Int32}
    (hfree : w.Freed (.accept c existing)) :
    Turned { w with host := { w.host with
      state := w.host.state.welcome existing w.host.nextId c
      nextId := followingId w.host.nextId } } := by
  have hnone : w.host.state.connOf w.host.nextId = none := by
    by_contra hne
    obtain ⟨d, hd⟩ := Option.ne_none_iff_exists'.1 hne
    obtain ⟨j, hj, hlen⟩ := h.linked_next hd
    exact hfree j d _ hlen hj hd
  refine ⟨?_, ?_, ?_, ?_, ?_, h.once, h.watched⟩
  · rw [State.welcome_readers, List.length_append, List.length_singleton]
    exact h.next.following (by omega)
  · rw [State.welcome_readers]
    intro j d p hj
    rcases Logs.getElem?_concat.1 hj with hj | ⟨rfl, he⟩
    · exact h.given j d p hj
    · obtain ⟨-, rfl⟩ := Prod.mk.inj he
      exact h.next
  · rw [State.welcome_readers]
    intro p d hp
    rw [State.welcome_connOf] at hp
    rw [List.length_append, List.length_singleton]
    split at hp
    · next he =>
      have hids : 0 < ids := by decide
      refine ⟨_, Logs.getElem?_concat.2 (.inr ⟨rfl, ?_⟩), by omega⟩
      rw [he, Option.some.inj hp]
    · obtain ⟨j, hj, hnear⟩ := h.linked p d hp
      refine ⟨j, Logs.getElem?_concat.2 (.inl hj), ?_⟩
      -- A link one accept older would be the one the condition speaks of.
      have hne : j + ids ≠ w.host.state.readers.length := fun he => hfree j d p he hj hp
      omega
  · rw [State.welcome_readers]
    intro d p hd
    rw [State.welcome_connOf]
    rcases List.mem_append.1 hd with hd | hd
    · rcases h.kept d p hd with hl | hl
      · left
        rw [if_neg, hl]
        rintro rfl
        rw [hnone] at hl
        simp at hl
      · exact .inr hl
    · obtain ⟨rfl, rfl⟩ := Prod.mk.inj (List.mem_singleton.1 hd)
      exact .inl (if_pos rfl)
  · rw [State.welcome_readers]
    exact h.raised.imp fun p d hd => List.mem_append_left _ hd

/-- A watcher's report. -/
theorem Turned.watch {w : Watch} (h : Turned w) {c : Connection} {peer : Int32}
    (hc : w.host.state.readers.lookup c = some peer) (hnew : c ∉ w.host.watched) :
    Turned { host := { w.host with internal := w.host.internal ++ [.lost peer], watched := insert c w.host.watched }
             raised := w.raised ++ [c] } where
  next := h.next
  given := h.given
  linked := h.linked
  kept := by
    intro d p hd
    rcases h.kept d p hd with hl | ⟨hw, hr⟩
    · exact .inl hl
    · refine .inr ⟨Finset.mem_insert_of_mem hw, fun hm => ?_⟩
      rcases List.mem_append.1 hm with hm | hm
      · exact hr hm
      · exact hnew (List.mem_singleton.1 hm ▸ hw)
  raised := by
    have hone : losses [.lost peer] = [peer] := rfl
    have hmem : (c, peer) ∈ w.host.state.readers := by
      obtain ⟨l₁, l₂, heq, -⟩ := List.lookup_eq_some_iff.1 hc
      simp [heq]
    simp only [losses, List.filterMap_append] at hone ⊢
    rw [hone]
    exact List.rel_append h.raised (.cons hmem .nil)
  once := by
    rw [List.nodup_append]
    refine ⟨h.once, List.nodup_singleton c, ?_⟩
    intro d hd e he heq
    rw [List.mem_singleton] at he
    exact hnew (he ▸ heq ▸ h.watched d hd)
  watched := by
    intro d hd
    rcases List.mem_append.1 hd with hd | hd
    · exact Finset.mem_insert_of_mem (h.watched d hd)
    · exact Finset.mem_insert.2 (.inl (List.mem_singleton.1 hd))

/-- A loss. -/
theorem Turned.lost {w : Watch} (h : Turned w) {peer : Int32} {rest : List Internal} (others : List Int32)
    (hint : w.host.internal = .lost peer :: rest) :
    Turned { host := { w.host with state := w.host.state.lost others peer, internal := rest }
             raised := w.raised.tail } := by
  obtain ⟨c, cs, heq, hcs, hc⟩ := h.lost_linked hint
  have honce := h.once
  rw [heq, List.nodup_cons] at honce
  rw [heq, List.tail_cons]
  refine ⟨?_, ?_, ?_, ?_, ?_, honce.2, fun d hd => h.watched d (by rw [heq]; exact List.mem_cons_of_mem c hd)⟩
  · rw [State.lost_readers]
    exact h.next
  · rw [State.lost_readers]
    exact h.given
  · rw [State.lost_readers]
    intro p d hp
    rw [State.lost_connOf] at hp
    split at hp
    · simp at hp
    · exact h.linked p d hp
  · rw [State.lost_readers]
    intro d p hd
    rw [State.lost_connOf]
    rcases h.kept d p hd with hl | ⟨hw, hr⟩
    · split
      · next hp =>
        -- The one link that goes is that of the connection the loss is about.
        rw [hp, hc] at hl
        obtain rfl := Option.some.inj hl
        exact .inr ⟨h.watched c (by simp [heq]), honce.1⟩
      · exact .inl hl
    · exact .inr ⟨hw, fun hm => hr (by rw [heq]; exact List.mem_cons_of_mem c hm)⟩
  · rw [State.lost_readers]
    exact hcs

theorem turned_step {w w' : Watch} {a : Host.Action} (h : Turned w) (hfree : w.Freed a) (hs : w.step a = some w') :
    Turned w' := by
  simp only [step, Option.map_eq_some_iff] at hs
  obtain ⟨host, hs, rfl⟩ := hs
  cases a with
  | accept c existing =>
    simp only [Host.step] at hs
    split at hs
    · rw [← Option.some.inj hs]
      exact h.accept hfree
    · simp at hs
  | watch c =>
    simp only [Host.step] at hs
    split at hs
    · simp at hs
    · next peer hc =>
      split at hs
      · simp at hs
      · next hnew =>
        rw [← Option.some.inj hs]
        exact h.watch hc hnew
  | lost peer others =>
    simp only [Host.step] at hs
    split at hs
    · next p rest hint =>
      split at hs
      · next hp =>
        rw [← Option.some.inj hs]
        exact h.lost others (hp.1 ▸ hint)
      · simp at hs
    · simp at hs
  | send limits keys target channel mode data => exact h.of_same (same_step hs trivial)
  | disconnect peer => exact h.of_same (same_step hs trivial)
  | apply control => exact h.of_same (same_step hs trivial)
  | arrive b => exact h.of_same (same_step hs trivial)

/-- **An id denotes one connection exactly when it is free again in time.**
In every run of a hosting session, however long: every accept gives an id
from 2 on that no linked peer has and every loss takes away the link of no
other connection than its own, if and only if at every accept the connection
accepted `ids` accepts before is not linked any more. -/
theorem denotes_iff {as : List Host.Action} {w : Watch} (h : Machine.run step {} as = some w) :
    Machine.Along step Denotes {} as ↔ Machine.Along step Freed {} as :=
  (Machine.along_congr (fun _ _ _ hI hs => (hI.denotes_iff_freed hs).symm)
    (fun _ _ _ hI hG hs => turned_step hI hG hs) h turned_init).symm

/-- The connection accepted `ids` accepts before, with its id. -/
def old (w : Watch) : Option (Connection × Int32) :=
  if ids ≤ w.host.state.readers.length then w.host.state.readers[w.host.state.readers.length - ids]? else none

theorem freed_accept {w : Watch} {c : Connection} {existing : List Int32} :
    w.Freed (.accept c existing) ↔ ∀ e ∈ w.old, w.host.state.connOf e.2 ≠ some e.1 := by
  unfold old
  constructor
  · intro h e he
    rw [Option.mem_def] at he
    split at he
    · exact h _ _ _ (by omega) he
    · simp at he
  · intro h j d peer hlen hj
    refine h (d, peer) ?_
    rw [if_pos (by omega), Option.mem_def, ← hlen, Nat.add_sub_cancel]
    exact hj

instance (w : Watch) : ∀ a, Decidable (w.Freed a)
  | .accept _ _ => decidable_of_iff _ freed_accept.symm
  | .send .. | .disconnect _ | .watch _ | .lost .. | .apply _ | .arrive _ => isTrue trivial

/-- A connection comes and goes, and another comes. -/
theorem denotes_iff_inTurn : Machine.Along step Denotes {} [.accept 0 [], .watch 0, .lost 2 [], .accept 1 []] := by
  have hrun : ((Machine.run step {} [.accept 0 [], .watch 0, .lost 2 [], .accept 1 []]).map fun w =>
      w.host.state.readers) = some [(0, 2), (1, 3)] := by
    decide +kernel
  obtain ⟨w, hw, -⟩ := Option.map_eq_some_iff.1 hrun
  exact (denotes_iff hw).2 (by decide +kernel)

/-! ## The ids come around -/

/-- The id of the `i`-th client, from 0 on. -/
def numbered : Nat → Int32
  | 0 => firstClientId
  | i + 1 => followingId (numbered i)

/-- `n` connections are accepted, and none is lost. -/
def crowd (n : Nat) : List Host.Action := (List.range n).map fun i => .accept i ((List.range i).map numbered)

theorem crowd_succ (n : Nat) : crowd (n + 1) = crowd n ++ [.accept n ((List.range n).map numbered)] := by
  rw [crowd, List.range_succ, List.map_append]
  rfl

theorem isId_numbered (i : Nat) : IsId (i + 1) (numbered i) := by
  induction i with
  | zero => exact IsId.first
  | succ i ih => exact ih.following (by omega)

theorem numbered_nodup {n : Nat} (hn : n ≤ ids) : ((List.range n).map numbered).Nodup := by
  refine List.Nodup.map_on (fun i hi j hj he => ?_) List.nodup_range
  rw [List.mem_range] at hi hj
  have hi' := isId_numbered i
  have hj' := isId_numbered j
  unfold IsId at hi' hj'
  rw [he] at hi'
  have hplace : Rounds.place ids (i + 1) = Rounds.place ids (j + 1) := by omega
  rcases Nat.le_total i j with hle | hle
  · have := Rounds.eq_of_place_eq (m := ids) (by omega) (show i + 1 ≤ j + 1 by omega) (by omega) hplace
    omega
  · have := Rounds.eq_of_place_eq (m := ids) (by omega) (show j + 1 ≤ i + 1 by omega) (by omega) hplace.symm
    omega

/-- The crowd is in. -/
structure Crowded (n : Nat) (w : Watch) : Prop where
  turned : Turned w
  readers : w.host.state.readers = (List.range n).map fun i => (i, numbered i)
  watched : w.host.watched = ∅

theorem Crowded.length {n : Nat} {w : Watch} (h : Crowded n w) : w.host.state.readers.length = n := by
  rw [h.readers, List.length_map, List.length_range]

theorem Crowded.mem_links {n : Nat} {w : Watch} (h : Crowded n w) {p : Int32} :
    p ∈ w.host.state.links ↔ p ∈ (List.range n).map numbered := by
  rw [State.mem_links_iff, List.mem_map]
  constructor
  · rintro ⟨c, hc⟩
    obtain ⟨j, hj, -⟩ := h.turned.linked p c hc
    have hmem := List.mem_of_getElem? hj
    rw [h.readers, List.mem_map] at hmem
    obtain ⟨i, hi, he⟩ := hmem
    exact ⟨i, hi, congrArg Prod.snd he⟩
  · rintro ⟨i, hi, rfl⟩
    refine ⟨i, ?_⟩
    have hmem : (i, numbered i) ∈ w.host.state.readers := by
      rw [h.readers]
      exact List.mem_map_of_mem hi
    rcases h.turned.kept i _ hmem with hl | ⟨hw, -⟩
    · exact hl
    · rw [h.watched] at hw
      simp at hw

/-- One more can be accepted. -/
theorem Crowded.accept {n : Nat} {w : Watch} (h : Crowded n w) (hn : n ≤ ids) :
    w.step (.accept n ((List.range n).map numbered)) = some { w with host := { w.host with
      state := w.host.state.welcome ((List.range n).map numbered) w.host.nextId n
      nextId := followingId w.host.nextId } } := by
  have hnew : w.host.state.readers.lookup n = none := by
    rw [h.readers, List.lookup_eq_none_iff]
    intro e he
    obtain ⟨i, hi, rfl⟩ := List.mem_map.1 he
    rw [List.mem_range] at hi
    simp
    omega
  have hperm : ((List.range n).map numbered).Perm w.host.state.links.keys := by
    rw [List.perm_ext_iff_of_nodup (numbered_nodup hn) w.host.state.links.keys_nodup]
    intro p
    rw [← AList.mem_keys, h.mem_links]
  simp only [step, Host.step, if_pos (And.intro hnew hperm), Option.map_some]

theorem crowded {n : Nat} (hn : n ≤ ids) : ∃ w, Machine.run step {} (crowd n) = some w ∧ Crowded n w := by
  induction n with
  | zero => exact ⟨{}, rfl, turned_init, rfl, rfl⟩
  | succ n ih =>
    obtain ⟨w, hw, hc⟩ := ih (by omega)
    have hstep := hc.accept (by omega)
    have hfree : w.Freed (.accept n ((List.range n).map numbered)) := by
      intro j c p hlen
      rw [hc.length] at hlen
      omega
    refine ⟨_, ?_, turned_step hc.turned hfree hstep, ?_, hc.watched⟩
    · rw [crowd_succ]
      exact Machine.run_concat.2 ⟨w, hw, hstep⟩
    · have hid : w.host.nextId = numbered n := by
        refine IsId.unique ?_ (isId_numbered n)
        have hnext := hc.turned.next
        rwa [hc.length] at hnext
      rw [State.welcome_readers, hc.readers, List.range_succ, List.map_append, hid]
      rfl

/-- With as many clients as there are ids, the next one gets the id of the
first. -/
theorem taken_of_eq {n : Nat} (hn : n = ids) :
    (∃ w, Machine.run step {} (crowd (n + 1)) = some w) ∧ ¬ Machine.Along step Denotes {} (crowd (n + 1)) := by
  obtain ⟨w, hw, hc⟩ := crowded (Nat.le_of_eq hn)
  rw [crowd_succ]
  refine ⟨⟨_, Machine.run_concat.2 ⟨w, hw, hc.accept (Nat.le_of_eq hn)⟩⟩, fun hall => ?_⟩
  obtain ⟨-, ⟨-, hfree⟩, -⟩ := (Machine.along_append hw).1 hall
  have hpos : 0 < n := hn ▸ by decide
  refine hfree (hc.mem_links.2 (List.mem_map.2 ⟨0, List.mem_range.2 hpos, ?_⟩))
  refine IsId.unique (isId_numbered 0) ?_
  have hnext := hc.turned.next
  unfold IsId at hnext ⊢
  rwa [hc.length, hn, Nat.add_comm, Rounds.place_add (by omega)] at hnext

/-- **An id is taken twice**: by the first of `ids + 1` clients and by the
last. -/
theorem id_taken :
    (∃ w, Machine.run step {} (crowd (ids + 1)) = some w) ∧ ¬ Machine.Along step Denotes {} (crowd (ids + 1)) :=
  taken_of_eq rfl

end Watch
end Gdiroh.Session
