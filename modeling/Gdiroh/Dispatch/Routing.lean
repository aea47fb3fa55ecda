/-
Where the dispatcher sends a connection, over every order of its threads'
steps: to the one registration that held its ALPN, and was not refusing, in
the state in which `dispatch` looked it up, or nowhere (`routing_exclusive`).
-/
import Gdiroh.Lib.Logs
import Gdiroh.Lib.Machine
import Gdiroh.Dispatch.Dispatcher

namespace Gdiroh.Dispatch
namespace Dispatcher

variable {d d' : Dispatcher}

/-! ## What a step does -/

/-- Every step, by what it changes. -/
inductive Stepped (d : Dispatcher) : Act → Dispatcher → Prop
  | taken {alpn} (h : alpn ∈ d.protocols) : Stepped d (.register alpn) d
  | registered {alpn} (h : alpn ∉ d.protocols) : Stepped d (.register alpn) { d with
      protocols := d.protocols.insert alpn d.registrations.length
      registrations := d.registrations ++ [{ alpn := alpn, opened := d.changes.length }]
      changes := d.changes ++ [.made] }
  | released {r registration} (hr : d.registrations[r]? = some registration) (hlive : registration.live = true)
      (hopened : d.changes[registration.opened]? = some .finished) :
      Stepped d (.release r) (d.release r registration)
  | read {t alpns} (ht : d.changes[t]? = some .made) (hkeys : alpns.Perm d.protocols.keys) :
      Stepped d (.keys t alpns)
        { d.setChange t (.read alpns (d.readings + 1)) with readings := d.readings + 1 }
  | published {t alpns time} (ht : d.changes[t]? = some (.read alpns time)) :
      Stepped d (.setAlpns t) { d.setChange t .finished with published := alpns, publishedAt := time }
  | refuse {r registration} (refuse : Bool) (hr : d.registrations[r]? = some registration) :
      Stepped d (.refuse r refuse) (d.setRegistration r { registration with refuse := refuse })
  | hungUp {r registration} (hr : d.registrations[r]? = some registration) :
      Stepped d (.hangUp r) (d.setRegistration r { registration with receiving := false })
  | offered (alpns) : Stepped d (.accept (some alpns)) { d with arrivals := d.arrivals ++ [.offered [] alpns] }
  | unreadable : Stepped d (.accept none) { d with arrivals := d.arrivals ++ [.accepting] }
  | wanted {i passed alpn rest} (hi : d.arrivals[i]? = some (.offered passed (alpn :: rest)))
      (h : alpn.any d.wanted = true) : Stepped d (.check i) (d.setArrival i .accepting)
  | unwanted {i passed alpn rest} (hi : d.arrivals[i]? = some (.offered passed (alpn :: rest)))
      (h : alpn.any d.wanted = false) :
      Stepped d (.check i) (d.setArrival i (.offered (passed ++ [alpn]) rest))
  | turnedAway {i passed} (hi : d.arrivals[i]? = some (.offered passed [])) :
      Stepped d (.check i) (d.setArrival i (.turnedAway passed))
  | failed {i} (hi : d.arrivals[i]? = some .accepting) : Stepped d (.fail i) (d.setArrival i .over)
  | connected {i} (alpn) (hi : d.arrivals[i]? = some .accepting) :
      Stepped d (.connect i alpn) (d.setArrival i (.connected alpn))
  | routed {i alpn} (hi : d.arrivals[i]? = some (.connected alpn)) :
      Stepped d (.lookup i) (d.setArrival i (.ofRoute (d.route alpn)))
  | sent {i r} (hi : d.arrivals[i]? = some (.routed r)) : Stepped d (.send i) (d.send i r)

theorem step_cases {a : Act} (h : step d a = some d') : Stepped d a d' := by
  cases a with
  | register alpn =>
    simp only [step, register, Option.some.injEq] at h
    split at h
    · next hm => exact h ▸ .taken hm
    · next hm => exact h ▸ .registered hm
  | release r =>
    simp only [step] at h
    split at h
    · simp at h
    next registration hr =>
    split at h
    · next hg =>
      simp only [Option.some.injEq] at h
      exact h ▸ .released hr hg.1 hg.2
    · simp at h
  | keys t alpns =>
    simp only [step] at h
    split at h
    · next hg =>
      simp only [Option.some.injEq] at h
      exact h ▸ .read hg.1 hg.2
    · simp at h
  | setAlpns t =>
    simp only [step] at h
    split at h
    · next ht =>
      simp only [Option.some.injEq] at h
      exact h ▸ .published ht
    · simp at h
  | refuse r refuse =>
    obtain ⟨registration, hr, rfl⟩ := Option.map_eq_some_iff.1 h
    exact .refuse refuse hr
  | hangUp r =>
    obtain ⟨registration, hr, rfl⟩ := Option.map_eq_some_iff.1 h
    exact .hungUp hr
  | accept offer =>
    simp only [step] at h
    split at h
    · simp at h
    · simp only [Option.some.injEq] at h
      subst h
      cases offer with
      | none => exact .unreadable
      | some alpns => exact .offered alpns
  | check i =>
    simp only [step] at h
    split at h
    · next hi =>
      split at h
      · next hw =>
        simp only [Option.some.injEq] at h
        exact h ▸ .wanted hi hw
      · next hw =>
        simp only [Option.some.injEq] at h
        exact h ▸ .unwanted hi (by simpa using hw)
    · next hi =>
      simp only [Option.some.injEq] at h
      exact h ▸ .turnedAway hi
    · simp at h
  | fail i =>
    simp only [step] at h
    split at h
    · next hi =>
      simp only [Option.some.injEq] at h
      exact h ▸ .failed hi
    · simp at h
  | connect i alpn =>
    simp only [step] at h
    split at h
    · next hi =>
      simp only [Option.some.injEq] at h
      exact h ▸ .connected alpn hi
    · simp at h
  | lookup i =>
    simp only [step] at h
    split at h
    · next hi =>
      simp only [Option.some.injEq] at h
      exact h ▸ .routed hi
    · simp at h
  | send i =>
    simp only [step] at h
    split at h
    · next hi =>
      simp only [Option.some.injEq] at h
      exact h ▸ .sent hi
    · simp at h

/-! ## The registry and the claims -/

/-- The claim is live: its ALPN is inserted and not yet removed. -/
def Live (d : Dispatcher) (r : Nat) (alpn : Alpn) : Prop :=
  ∃ registration, d.registrations[r]? = some registration ∧ registration.live = true ∧ registration.alpn = alpn

/-- The registry holds the live claims. -/
def Claimed (d : Dispatcher) : Prop := ∀ alpn r, d.protocols.lookup alpn = some r ↔ d.Live r alpn

theorem live_set_iff {r s : Nat} {registration new : Registration} (hr : d.registrations[r]? = some registration)
    {alpn : Alpn} : (d.setRegistration r new).Live s alpn ↔
      if s = r then new.live = true ∧ new.alpn = alpn else d.Live s alpn := by
  have hlt := (List.getElem?_eq_some_iff.1 hr).1
  unfold Live setRegistration
  by_cases hs : s = r
  · subst hs
    simp [hlt]
  · simp [hs, List.getElem?_set_ne (Ne.symm hs)]

/-- A registration's other fields are not its claim. -/
theorem Claimed.of_set (h : Claimed d) {r : Nat} {registration new : Registration}
    (hr : d.registrations[r]? = some registration) (hlive : new.live = registration.live)
    (halpn : new.alpn = registration.alpn) : Claimed (d.setRegistration r new) := by
  intro alpn s
  rw [live_set_iff hr]
  split
  · next hs =>
    subst hs
    rw [hlive, halpn]
    exact (h alpn s).trans ⟨fun ⟨reg, hreg, hl⟩ => Option.some.inj (hr.symm.trans hreg) ▸ hl, fun hl => ⟨_, hr, hl⟩⟩
  · exact h alpn s

theorem Claimed.registered (h : Claimed d) {alpn : Alpn} (hnew : alpn ∉ d.protocols) : Claimed { d with
    protocols := d.protocols.insert alpn d.registrations.length
    registrations := d.registrations ++ [{ alpn := alpn, opened := d.changes.length }]
    changes := d.changes ++ [.made] } := by
  intro a r
  have hlive : Live { d with
      registrations := d.registrations ++ [{ alpn := alpn, opened := d.changes.length }] } r a ↔
        d.Live r a ∨ r = d.registrations.length ∧ alpn = a := by
    simp only [Live, Logs.getElem?_concat, or_and_right, exists_or, and_assoc, exists_and_left, exists_eq_left']
    simp
  refine Iff.trans ?_ hlive.symm
  by_cases ha : a = alpn
  · subst ha
    have hno : ¬ d.Live r a := fun hl => hnew (AList.lookup_isSome.1 (by simp [(h a r).2 hl]))
    simp [hno, eq_comm]
  · simp [AList.lookup_insert_ne ha, h a r, Ne.symm ha]

theorem Claimed.released (h : Claimed d) {r : Nat} {registration : Registration}
    (hr : d.registrations[r]? = some registration) (hlive : registration.live = true) :
    Claimed (d.release r registration) := by
  intro a s
  have hheld : d.protocols.lookup registration.alpn = some r := (h _ r).2 ⟨registration, hr, hlive, rfl⟩
  refine Iff.trans ?_ (live_set_iff hr).symm
  by_cases ha : a = registration.alpn
  · subst ha
    simp only [release, AList.lookup_erase, reduceCtorEq, Bool.false_eq_true, false_and, false_iff]
    split
    · exact id
    · next hs =>
      rw [← h]
      intro hl
      exact hs (Option.some.inj (hl.symm.trans hheld))
  · simp only [release, AList.lookup_erase_ne ha, Bool.false_eq_true, false_and]
    split
    · next hs =>
      subst hs
      rw [h]
      refine ⟨?_, False.elim⟩
      rintro ⟨reg, hreg, -, rfl⟩
      exact ha (by rw [Option.some.inj (hreg.symm.trans hr)])
    · exact h a s

theorem claimed_step {a : Act} (h : Claimed d) (hs : step d a = some d') : Claimed d' := by
  cases step_cases hs with
  | registered hnew => exact h.registered hnew
  | released hr hlive _ => exact h.released hr hlive
  | refuse b hr => exact h.of_set hr rfl rfl
  | hungUp hr => exact h.of_set hr rfl rfl
  | @sent i r hi =>
    unfold send
    dsimp only
    split
    · exact h
    · exact h
  | _ => exact h

/-! ## Where connections go -/

/-- The registration holds the ALPN and is not refusing. -/
def Holds (d : Dispatcher) (alpn : Alpn) (r : Nat) : Prop :=
  d.protocols.lookup alpn = some r ∧ d.Live r alpn ∧ d.refuses r = false

theorem route_eq_deliver {alpn : Alpn} {r : Nat} :
    d.route alpn = .deliver r ↔ d.protocols.lookup alpn = some r ∧ d.refuses r = false := by
  unfold route
  split
  · next s hs =>
    split
    · next hf =>
      simp only [reduceCtorEq, hs, Option.some.injEq, false_iff, not_and]
      rintro rfl
      simp [hf]
    · next hf =>
      simp only [Route.deliver.injEq, hs, Option.some.injEq]
      refine ⟨?_, fun h => h.1⟩
      rintro rfl
      exact ⟨rfl, by simpa using hf⟩
  · next hs => simp [hs]

/-- The cheap check and the lookup agree, ALPN by ALPN. -/
theorem wanted_iff {alpn : Alpn} : d.wanted alpn = true ↔ ∃ r, d.route alpn = .deliver r := by
  simp only [route_eq_deliver, wanted]
  cases d.protocols.lookup alpn with
  | none => simp
  | some r => simp

/-- The lookup for the arrival found the registration holding the ALPN that
the arrival is connected on. -/
def Looked (as : List Act) (i r : Nat) : Prop :=
  Machine.Took step {} as (fun d => ∃ alpn, d.arrivals[i]? = some (.connected alpn) ∧ d.Holds alpn r) (.lookup i)

/-- The check of the arrival came to the ALPN when nothing would take it. -/
def Unwanted (as : List Act) (i : Nat) (alpn : Alpn) : Prop :=
  Machine.Took step {} as (fun d => ∀ r, d.route alpn ≠ .deliver r) (.check i)

/-- What the actions so far say about a connection's whereabouts. -/
def Explains (as : List Act) (i : Nat) : Routing → Prop
  | .routed r => Looked as i r
  | .offered passed _ => ∀ alpn, some alpn ∈ passed → Unwanted as i alpn
  | .turnedAway offer => ∀ alpn, some alpn ∈ offer → Unwanted as i alpn
  | _ => True

theorem Explains.concat {as : List Act} {a : Act} {i : Nat} {routing : Routing} (h : Explains as i routing) :
    Explains (as ++ [a]) i routing := by
  cases routing with
  | routed r => exact Machine.Took.concat h
  | offered passed rest => exact fun alpn hm => Machine.Took.concat (h alpn hm)
  | turnedAway offer => exact fun alpn hm => Machine.Took.concat (h alpn hm)
  | _ => trivial

structure Routed (as : List Act) (d : Dispatcher) : Prop where
  claimed : Claimed d
  explained : ∀ i routing, d.arrivals[i]? = some routing → Explains as i routing
  sent : ∀ i r, (i, r) ∈ d.sent → d.arrivals[i]? = some .over ∧ Looked as i r
  once : (d.sent.map (·.1)).Nodup

/-- A step that leaves the connections alone. -/
theorem Routed.same {as : List Act} {a : Act} (h : Routed as d) (hc : Claimed d') (ha : d'.arrivals = d.arrivals)
    (hs : d'.sent = d.sent) : Routed (as ++ [a]) d' where
  claimed := hc
  explained i routing hi := (h.explained i routing (ha ▸ hi)).concat
  sent i r hm := by
    obtain ⟨hi, hl⟩ := h.sent i r (hs ▸ hm)
    exact ⟨ha ▸ hi, hl.concat⟩
  once := hs ▸ h.once

/-- A new connection. -/
theorem Routed.arrival {as : List Act} {a : Act} (h : Routed as d) {routing : Routing}
    (hr : ∀ i, Explains (as ++ [a]) i routing) :
    Routed (as ++ [a]) { d with arrivals := d.arrivals ++ [routing] } where
  claimed := h.claimed
  explained i r hi := by
    rcases Logs.getElem?_concat.1 hi with hi | ⟨rfl, rfl⟩
    · exact (h.explained i r hi).concat
    · exact hr _
  sent i r hm := by
    obtain ⟨hi, hl⟩ := h.sent i r hm
    exact ⟨Logs.getElem?_concat.2 (.inl hi), hl.concat⟩
  once := h.once

/-- A connection that is not over moves on. -/
theorem Routed.moves {as : List Act} {a : Act} (h : Routed as d) {i : Nat} {old routing : Routing}
    (hi : d.arrivals[i]? = some old) (hold : old ≠ .over) (hr : Explains (as ++ [a]) i routing) :
    Routed (as ++ [a]) (d.setArrival i routing) where
  claimed := h.claimed
  explained j r hj := by
    rcases (Logs.getElem?_set hi).1 hj with ⟨rfl, rfl⟩ | ⟨-, hj⟩
    · exact hr
    · exact (h.explained j r hj).concat
  sent j r hm := by
    obtain ⟨hj, hl⟩ := h.sent j r hm
    have hij : i ≠ j := by
      rintro rfl
      exact hold (Option.some.inj (hi.symm.trans hj))
    exact ⟨(Logs.getElem?_set hi).2 (.inr ⟨hij, hj⟩), hl.concat⟩
  once := h.once

/-- A connection is sent on. -/
theorem Routed.delivered {as : List Act} {a : Act} (h : Routed as d) {i r : Nat}
    (hi : d.arrivals[i]? = some (.routed r)) : Routed (as ++ [a]) (d.send i r) := by
  have hmoved : Routed (as ++ [a]) (d.setArrival i .over) := h.moves hi (by simp) trivial
  have hlooked : Looked (as ++ [a]) i r := (h.explained i _ hi).concat
  unfold send
  dsimp only
  split
  · refine ⟨hmoved.claimed, hmoved.explained, fun j s hm => ?_, ?_⟩
    · rcases List.mem_append.1 hm with hm | hm
      · exact hmoved.sent j s hm
      · simp only [List.mem_singleton, Prod.mk.injEq] at hm
        obtain ⟨rfl, rfl⟩ := hm
        exact ⟨List.getElem?_set_self (List.getElem?_eq_some_iff.1 hi).1, hlooked⟩
    · -- What was sent is over, and this one was not.
      have hfresh : i ∉ d.sent.map (·.1) := by
        intro hm
        obtain ⟨⟨j, s⟩, hsent, rfl⟩ := List.mem_map.1 hm
        have := (h.sent j s hsent).1
        simp [hi] at this
      rw [List.map_append, List.map_singleton]
      refine List.nodup_append.2 ⟨h.once, by simp, ?_⟩
      rintro j hj k hk rfl
      simp only [List.mem_singleton] at hk
      subst hk
      exact hfresh hj
  · exact hmoved

theorem routed_step {as : List Act} {a : Act} (h : Routed as d) (hrun : Machine.run step {} as = some d)
    (hs : step d a = some d') : Routed (as ++ [a]) d' := by
  have hc := claimed_step h.claimed hs
  cases step_cases hs with
  | offered alpns => exact h.arrival fun i => by simp [Explains]
  | unreadable => exact h.arrival fun i => trivial
  | wanted hi _ => exact h.moves hi (by simp) trivial
  | @unwanted i passed alpn rest hi hw =>
    refine h.moves hi (by simp) fun b hb => ?_
    rcases List.mem_append.1 hb with hb | hb
    · exact (h.explained i _ hi b hb).concat
    · refine Machine.Took.last hrun fun r hr => ?_
      rw [← List.mem_singleton.1 hb, Option.any_some] at hw
      exact Bool.false_ne_true (hw.symm.trans (wanted_iff.2 ⟨r, hr⟩))
  | turnedAway hi => exact h.moves hi (by simp) fun b hb => (h.explained _ _ hi b hb).concat
  | failed hi => exact h.moves hi (by simp) trivial
  | connected alpn hi => exact h.moves hi (by simp) trivial
  | @routed i alpn hi =>
    refine h.moves hi (by simp) ?_
    cases hroute : d.route alpn with
    | close code reason => trivial
    | deliver r =>
      obtain ⟨hl, hf⟩ := route_eq_deliver.1 hroute
      exact Machine.Took.last hrun ⟨alpn, hi, hl, (h.claimed alpn r).1 hl, hf⟩
  | sent hi => exact h.delivered hi
  | _ => exact h.same hc rfl rfl

theorem routed_run {as : List Act} (h : Machine.run step {} as = some d) : Routed as d := by
  refine Machine.run_trace (I := Routed) ?_ (fun as s a s' hrun hI hs => routed_step hI hrun hs) h
  refine ⟨fun alpn r => ?_, by simp, by simp, by simp⟩
  simp [Live]

/-- A definite no means that the lookup, on the same registry, would deliver
nothing offered. -/
theorem route_of_unwanted {alpns : List (Option Alpn)} (h : d.offersWantedAlpn (some alpns) = some false)
    {alpn : Alpn} (hm : some alpn ∈ alpns) (r : Nat) : d.route alpn ≠ .deliver r := by
  simp only [offersWantedAlpn, Option.map_some, Option.some.injEq, List.any_eq_false] at h
  intro hr
  exact h _ hm (by simpa using wanted_iff.2 ⟨r, hr⟩)

/-- **Routing is exclusive.** The registry's keys are the ALPNs of the live
claims, one claim to an ALPN. A connection is sent at most once, and to the
registration that held its ALPN and was not refusing in the state in which it
was looked up. The check before the handshake refuses only what that lookup
would not deliver, on one registry or, as the loop makes it, ALPN by ALPN. -/
theorem routing_exclusive {as : List Act} (h : Machine.run step {} as = some d) :
    (∀ alpn, alpn ∈ d.protocols ↔ ∃ r, d.Live r alpn) ∧
    (∀ alpn r s, d.Live r alpn → d.Live s alpn → r = s) ∧
    (d.sent.map (·.1)).Nodup ∧
    (∀ i r, (i, r) ∈ d.sent → Looked as i r) ∧
    (∀ alpns, d.offersWantedAlpn (some alpns) = some false →
      ∀ alpn, some alpn ∈ alpns → ∀ r, d.route alpn ≠ .deliver r) ∧
    ∀ i offer, d.arrivals[i]? = some (.turnedAway offer) → ∀ alpn, some alpn ∈ offer → Unwanted as i alpn := by
  have hr := routed_run h
  refine ⟨fun alpn => ?_, fun alpn r s hl hs => ?_, hr.once, fun i r hm => (hr.sent i r hm).2,
    fun alpns hno alpn hm r => route_of_unwanted hno hm r, fun i offer hi => hr.explained i _ hi⟩
  · rw [← AList.lookup_isSome, Option.isSome_iff_exists]
    exact exists_congr fun r => hr.claimed alpn r
  · rw [← hr.claimed] at hl hs
    exact Option.some.inj (hl.symm.trans hs)

/-- Two protocols, one of them refusing. A connection for the other is routed
and, its ALPN meanwhile released and claimed again, still sent to the
registration it was looked up for; a connection for the refusing one is turned
away. -/
theorem routing_exclusive_reclaimed :
    let as : List Act := [.register [1], .keys 0 [[1]], .setAlpns 0, .register [2], .keys 1 [[2], [1]], .setAlpns 1,
      .refuse 1 true, .accept (some [none, some [1]]), .check 0, .check 0, .connect 0 [1], .lookup 0,
      .release 0, .register [1], .send 0, .accept (some [some [2]]), .check 1, .check 1]
    ∃ d, Machine.run step {} as = some d ∧ d.sent = [(0, 0)] ∧ d.arrivals[1]? = some (.turnedAway [some [2]]) ∧
      d.protocols.lookup [1] = some 2 ∧ Looked as 0 0 ∧ Unwanted as 1 [2] := by
  intro as
  have hrun : (Machine.run step {} as).map (fun d => (d.sent, d.arrivals[1]?, d.protocols.lookup [1])) =
      some ([(0, 0)], some (.turnedAway [some [2]]), some 2) := by decide +kernel
  obtain ⟨d, hd, he⟩ := Option.map_eq_some_iff.1 hrun
  simp only [Prod.mk.injEq] at he
  obtain ⟨-, -, -, hlooked, -, hunwanted⟩ := routing_exclusive hd
  exact ⟨d, hd, he.1, he.2.1, he.2.2, hlooked 0 0 (by simp [he.1]), hunwanted 1 _ he.2.1 [2] (by simp)⟩

end Dispatcher
end Gdiroh.Dispatch
