/-
Whether an endpoint can be hosted on again after a session on it was closed.

`close` only puts a command into the session's queue, and drops the session;
the claim goes when the task comes to it. `obtains_iff`: a `host` that follows
gets the ALPN if and only if every session that was told to close has dropped
its claim by then. Once `Closed` was received from a session it has, since the
claim is dropped before the last event is sent.
-/
import Gdiroh.Peer.Stage

namespace Gdiroh

open Dispatch Endpoint Session

namespace Dispatch

/-- The step is an owner's, on its registration. -/
def Act.touches (r : Nat) : Act → Prop
  | .release s | .refuse s _ | .hangUp s => s = r
  | _ => False

namespace Dispatcher

/-- The steps of others leave a registration alone. -/
theorem step_registration {d d' : Dispatcher} {a : Act} (hs : step d a = some d') {r : Nat} {g : Registration}
    (hr : d.registrations[r]? = some g) (ha : ¬ a.touches r) : d'.registrations[r]? = some g := by
  have hset : ∀ {s : Nat} (new : Registration), s ≠ r → (d.registrations.set s new)[r]? = some g :=
    fun new hne => (List.getElem?_set_ne hne).trans hr
  cases step_cases hs with
  | registered hnew =>
    exact Logs.getElem?_concat.2 (.inl hr)
  | released _ _ _ => exact hset _ ha
  | refuse b _ => exact hset _ ha
  | hungUp _ => exact hset _ ha
  | @sent i s hi =>
    unfold send
    dsimp only
    split
    · exact hr
    · exact hr
  | _ => exact hr

theorem release_registration {d d' : Dispatcher} {r : Nat} {g : Registration} (hr : d.registrations[r]? = some g)
    (hs : step d (.release r) = some d') : d'.registrations[r]? = some { g with live := false } := by
  cases step_cases hs with
  | released hr' _ _ =>
    obtain rfl := Option.some.inj (hr.symm.trans hr')
    exact List.getElem?_set_self (List.getElem?_eq_some_iff.1 hr).1

theorem refuse_registration {d d' : Dispatcher} {r : Nat} {g : Registration} {b : Bool}
    (hr : d.registrations[r]? = some g) (hs : step d (.refuse r b) = some d') :
    d'.registrations[r]? = some { g with refuse := b } := by
  cases step_cases hs with
  | refuse _ hr' =>
    obtain rfl := Option.some.inj (hr.symm.trans hr')
    exact List.getElem?_set_self (List.getElem?_eq_some_iff.1 hr).1

theorem hangUp_registration {d d' : Dispatcher} {r : Nat} {g : Registration} (hr : d.registrations[r]? = some g)
    (hs : step d (.hangUp r) = some d') : d'.registrations[r]? = some { g with receiving := false } := by
  cases step_cases hs with
  | hungUp hr' =>
    obtain rfl := Option.some.inj (hr.symm.trans hr')
    exact List.getElem?_set_self (List.getElem?_eq_some_iff.1 hr).1

end Dispatcher
end Dispatch

/-! ## The sessions and their claims -/

/-- The `Closed` a session has yet to send. -/
def Phase.last : Phase → Option String
  | .leaving last | .releasing last _ | .hungUp last => last
  | _ => none

/-- What a session says about its end is so. -/
structure Hosted.Fits (x : Hosted) : Prop where
  closed : x.closed ≠ none → x.phase = .ended
  observed : x.observed = true → x.closed ≠ none
  refused : x.registration = none → x.phase = .ended
  obtained : x.registration ≠ none → x.closed ≠ some alreadyHosting
  last : x.phase.last ≠ some alreadyHosting

/-- A session that says about its end what it said before. -/
theorem Hosted.Fits.same {x x' : Hosted} (h : x.Fits) (hphase : x'.phase = x.phase)
    (hregistration : x'.registration = x.registration) (hclosed : x'.closed = x.closed)
    (hobserved : x'.observed = x.observed) : x'.Fits where
  closed := by
    rw [hclosed, hphase]
    exact h.closed
  observed := by
    rw [hobserved, hclosed]
    exact h.observed
  refused := by
    rw [hregistration, hphase]
    exact h.refused
  obtained := by
    rw [hregistration, hclosed]
    exact h.obtained
  last := by
    rw [hphase]
    exact h.last

/-- A session still under way has not closed, and goes on as one that has
not. -/
theorem Hosted.Fits.onward {x : Hosted} {phase : Phase} (h : x.Fits) (hphase : x.phase ≠ .ended)
    (hlast : phase.last ≠ some alreadyHosting) : Hosted.Fits { x with phase := phase } :=
  ⟨fun hc => absurd (h.closed hc) hphase, h.observed, fun hr => absurd (h.refused hr) hphase, h.obtained, hlast⟩

/-- The registry, as far as the sessions go: each has a registration of its
own, live as long as the session holds it. -/
structure Claims (d : Dispatcher) (sessions : List Hosted) : Prop where
  claimed : d.Claimed
  owned : ∀ (s : Nat) (x : Hosted) (r : Nat), sessions[s]? = some x → x.registration = some r →
    ∃ g : Registration, d.registrations[r]? = some g ∧ g.alpn = sessionAlpn ∧ g.live = x.phase.holds
  distinct : ∀ (s t : Nat) (x y : Hosted) (r : Nat), sessions[s]? = some x → sessions[t]? = some y →
    x.registration = some r → y.registration = some r → s = t
  fits : ∀ x ∈ sessions, x.Fits

namespace Claims

variable {d d' : Dispatcher} {sessions : List Hosted} {s : Nat} {x x' : Hosted}

theorem init : Claims {} [] where
  claimed := by
    intro alpn r
    simp [Dispatcher.Live]
  owned := by simp
  distinct := by simp
  fits := by simp

theorem foreign (h : Claims d sessions) {a : Act} (hs : d.step a = some d')
    (ha : ∀ x ∈ sessions, ∀ r, x.registration = some r → ¬ a.touches r) : Claims d' sessions where
  claimed := Dispatcher.claimed_step h.claimed hs
  owned := by
    intro s x r hx hr
    obtain ⟨g, hg, hrest⟩ := h.owned s x r hx hr
    exact ⟨g, Dispatcher.step_registration hs hg (ha x (List.mem_of_getElem? hx) r hr), hrest⟩
  distinct := h.distinct
  fits := h.fits

/-- One session changes, and nothing of the others' registrations. -/
theorem change (h : Claims d sessions) (hclaimed : d'.Claimed) (hx : sessions[s]? = some x)
    (hsame : x'.registration = x.registration)
    (hother : ∀ q g, x.registration ≠ some q → d.registrations[q]? = some g → d'.registrations[q]? = some g)
    (hown : ∀ (r : Nat) (g : Registration), x.registration = some r → d.registrations[r]? = some g →
      ∃ g' : Registration, d'.registrations[r]? = some g' ∧ g'.alpn = g.alpn ∧
        (g.live = x.phase.holds → g'.live = x'.phase.holds))
    (hf : x'.Fits) : Claims d' (sessions.set s x') where
  claimed := hclaimed
  owned := by
    intro t y q hy hq
    rcases (Logs.getElem?_set hx).1 hy with ⟨rfl, rfl⟩ | ⟨hts, hy⟩
    · have hq := hsame.symm.trans hq
      obtain ⟨g, hg, halpn, hlive⟩ := h.owned s x q hx hq
      obtain ⟨g', hg', halpn', hlive'⟩ := hown q g hq hg
      exact ⟨g', hg', halpn'.trans halpn, hlive' hlive⟩
    · obtain ⟨g, hg, hrest⟩ := h.owned t y q hy hq
      exact ⟨g, hother q g (fun he => hts (h.distinct s t x y q hx hy he hq)) hg, hrest⟩
  distinct := by
    have hback : ∀ {t : Nat} {y : Hosted} {q : Nat}, (sessions.set s x')[t]? = some y → y.registration = some q →
        ∃ y₀ : Hosted, sessions[t]? = some y₀ ∧ y₀.registration = some q := by
      intro t y q hy hq
      rcases (Logs.getElem?_set hx).1 hy with ⟨rfl, rfl⟩ | ⟨-, hy⟩
      · exact ⟨x, hx, hsame.symm.trans hq⟩
      · exact ⟨y, hy, hq⟩
    intro t u y z q hy hz hqy hqz
    obtain ⟨y₀, hy₀, hq₀⟩ := hback hy hqy
    obtain ⟨z₀, hz₀, hq₁⟩ := hback hz hqz
    exact h.distinct t u y₀ z₀ q hy₀ hz₀ hq₀ hq₁
  fits := by
    intro y hy
    rcases List.mem_or_eq_of_mem_set hy with hy | rfl
    · exact h.fits y hy
    · exact hf

/-- A session goes on, with its claim as it was. -/
theorem set (h : Claims d sessions) (hx : sessions[s]? = some x) (hsame : x'.registration = x.registration)
    (hholds : x'.phase.holds = x.phase.holds) (hf : x'.Fits) : Claims d (sessions.set s x') :=
  h.change h.claimed hx hsame (fun _ _ _ hg => hg) (fun _ g _ hg => ⟨g, hg, rfl, fun hl => hl.trans hholds.symm⟩) hf

/-- A session's own step on its registration. -/
theorem own (h : Claims d sessions) {a : Act} (hs : d.step a = some d') (hx : sessions[s]? = some x) {r : Nat}
    (hr : x.registration = some r) (ha : ∀ q, a.touches q → q = r) (hsame : x'.registration = x.registration)
    (hown : ∀ g, d.registrations[r]? = some g → ∃ g' : Registration, d'.registrations[r]? = some g' ∧
      g'.alpn = g.alpn ∧ (g.live = x.phase.holds → g'.live = x'.phase.holds))
    (hf : x'.Fits) : Claims d' (sessions.set s x') := by
  refine h.change (Dispatcher.claimed_step h.claimed hs) hx hsame (fun q g hq hg => ?_) (fun q g hq hg => ?_) hf
  · exact Dispatcher.step_registration hs hg fun ht => hq (ha q ht ▸ hr)
  · obtain rfl := Option.some.inj (hr.symm.trans hq)
    exact hown g hg

/-- A session is added. -/
theorem concat (h : Claims d sessions) (hclaimed : d'.Claimed)
    (hold : ∀ (q : Nat) (g : Registration), d.registrations[q]? = some g → d'.registrations[q]? = some g)
    (hnew : ∀ r, x.registration = some r → d.registrations[r]? = none ∧
      ∃ g : Registration, d'.registrations[r]? = some g ∧ g.alpn = sessionAlpn ∧ g.live = x.phase.holds)
    (hf : x.Fits) : Claims d' (sessions ++ [x]) := by
  refine ⟨hclaimed, fun t y q hy hq => ?_, fun t u y z q hy hz hqy hqz => ?_, fun y hy => ?_⟩
  · rcases Logs.getElem?_concat.1 hy with hy | ⟨-, rfl⟩
    · obtain ⟨g, hg, hrest⟩ := h.owned t y q hy hq
      exact ⟨g, hold q g hg, hrest⟩
    · exact (hnew q hq).2
  · -- A registration that a session has is not the new one's.
    have hfresh : ∀ {t : Nat} {y : Hosted}, sessions[t]? = some y → y.registration = some q →
        x.registration ≠ some q := by
      intro t y hy hq hx
      obtain ⟨g, hg, -⟩ := h.owned t y q hy hq
      simp [(hnew q hx).1] at hg
    rcases Logs.getElem?_concat.1 hy with hyo | ⟨ht, rfl⟩ <;> rcases Logs.getElem?_concat.1 hz with hzo | ⟨hu, rfl⟩
    · exact h.distinct t u y z q hyo hzo hqy hqz
    · exact absurd hqz (hfresh hyo hqy)
    · exact absurd hqy (hfresh hzo hqz)
    · exact ht.trans hu.symm
  · rcases List.mem_append.1 hy with hy | hy
    · exact h.fits y hy
    · rw [List.mem_singleton.1 hy]
      exact hf

end Claims

namespace Stage

variable {w w' : Stage}

/-- The sessions of the stage and their claims. -/
def Claiming (w : Stage) : Prop := Claims w.dispatcher w.sessions

/-- A peer's session is dropped; the claim is not. -/
theorem Claiming.assign (h : w.Claiming) (p : Nat) (session : Option Nat) : (w.assign p session).Claiming := by
  unfold Stage.assign letGo
  split
  · exact h
  split
  · exact h
  next s _ x hx =>
    exact h.set hx rfl rfl ((h.fits x (List.mem_of_getElem? hx)).same rfl rfl rfl rfl)

theorem Claiming.host (h : w.Claiming) (p : Nat) : (w.host p).Claiming := by
  unfold Stage.host
  split
  · refine Claiming.assign ?_ p _
    exact h.concat h.claimed (fun _ _ hg => hg) (by simp) ⟨fun _ => rfl, by simp, fun _ => rfl, by simp, by simp [Phase.last]⟩
  next hnew =>
    have hd : w.dispatcher.step (.register sessionAlpn) = some (w.dispatcher.register sessionAlpn) := rfl
    refine h.concat (Dispatcher.claimed_step h.claimed hd)
      (fun q g hg => Dispatcher.step_registration hd hg id) (fun r hr => ?_)
      ⟨by simp, by simp, by simp, by simp, by simp [Phase.last]⟩
    obtain rfl := Option.some.inj hr
    refine ⟨List.getElem?_eq_none (Nat.le_refl _), { alpn := sessionAlpn, opened := w.dispatcher.changes.length }, ?_,
      rfl, rfl⟩
    simp [Dispatcher.register, hnew]

theorem Claiming.storeFlag (h : w.Claiming) {s : Nat} {refuse : Bool} (hs : w.storeFlag s refuse = some w') :
    w'.Claiming := by
  unfold Stage.storeFlag at hs
  split at hs
  · obtain rfl := Option.some.inj hs
    exact h
  next r hr =>
    obtain ⟨d, hd, rfl⟩ := Option.map_eq_some_iff.1 hs
    obtain ⟨x, hx, hr⟩ := Option.bind_eq_some_iff.1 hr
    have hown : Claims d (w.sessions.set s x) := h.own hd hx hr (fun q ht => ht.symm) rfl
      (fun g hg => ⟨_, Dispatcher.refuse_registration hg hd, rfl, id⟩) (h.fits x (List.mem_of_getElem? hx))
    obtain ⟨hlt, rfl⟩ := List.getElem?_eq_some_iff.1 hx
    rw [List.set_getElem_self hlt] at hown
    exact hown

/-- A session's task goes on, without its claim. -/
theorem Claiming.set (h : w.Claiming) {s : Nat} {x x' : Hosted} (hx : w.sessions[s]? = some x)
    (hsame : x'.registration = x.registration) (hholds : x'.phase.holds = x.phase.holds) (hf : x'.Fits) :
    (w.setSession s x').Claiming :=
  Claims.set h hx hsame hholds hf

theorem claiming_step {a : Action} (h : w.Claiming) (hs : w.step a = some w') : w'.Claiming := by
  have hfits : ∀ {s : Nat} {x : Hosted}, w.sessions[s]? = some x → x.Fits := fun hx =>
    h.fits _ (List.mem_of_getElem? hx)
  cases step_cases hs with
  | host hidle => exact h.host _
  | spawned hmain hx hphase =>
    exact h.set hx rfl (by simp [hphase, Phase.holds]) ((hfits hx).onward (by simp [hphase]) (by simp [Phase.last]))
  | unspawned hmain hx hphase =>
    exact h.set hx rfl (by simp [hphase, Phase.holds])
      ((hfits hx).onward (by simp [hphase]) (by simp [Phase.last, World.notRunning, alreadyHosting]))
  | @stored p s w₁ hmain hflag =>
    have hflagged : w₁.Claiming := h.storeFlag hflag
    exact hflagged.assign p (some s)
  | failed hmain => exact h
  | idle hidle => exact h
  | close hidle hp hx =>
    refine Claiming.assign ?_ _ none
    exact h.set hx rfl rfl ((hfits hx).same rfl rfl rfl rfl)
  | poll hidle hp hx hclosed =>
    have hf := hfits hx
    refine Claiming.assign ?_ _ none
    exact h.set hx rfl rfl ⟨hf.closed, fun _ => hclosed, hf.refused, hf.obtained, hf.last⟩
  | leave hidle => exact h.assign _ _
  | command hx => exact h.set hx rfl rfl ((hfits hx).same rfl rfl rfl rfl)
  | setField hidle hp => exact h
  | setting hidle hp => exact h
  | @set p before s w₁ hmain hp hflag =>
    have hflagged : w₁.Claiming := h.storeFlag hflag
    exact hflagged
  | taken hx => exact h.set hx rfl rfl ((hfits hx).same rfl rfl rfl rfl)
  | left hx hphase =>
    exact h.set hx rfl (by simp [hphase, Phase.holds])
      ((hfits hx).onward (by simp [hphase]) (by simp [Phase.last, sessionClosed, alreadyHosting]))
  | welcomed hx hr hc => exact h.set hx rfl rfl ((hfits hx).same rfl rfl rfl rfl)
  | abandoned hx hphase =>
    exact h.set hx rfl (by simp [hphase, Phase.holds]) ((hfits hx).onward (by simp [hphase]) (by simp [Phase.last]))
  | released hx hphase hr hd =>
    have hlast := (hfits hx).last
    rw [hphase] at hlast
    exact h.own hd hx hr (fun q ht => ht.symm) rfl
      (fun g hg => ⟨_, Dispatcher.release_registration hg hd, rfl, fun _ => rfl⟩)
      ((hfits hx).onward (by simp [hphase]) hlast)
  | hungUp hx hphase hr hd =>
    have hlast := (hfits hx).last
    rw [hphase] at hlast
    exact h.own hd hx hr (fun q ht => ht.symm) rfl
      (fun g hg => ⟨_, Dispatcher.hangUp_registration hg hd, rfl, fun hl => by rw [hphase] at hl; exact hl⟩)
      ((hfits hx).onward (by simp [hphase]) hlast)
  | reported hx hphase =>
    have hf := hfits hx
    have hlast := hf.last
    rw [hphase] at hlast
    refine h.set hx rfl (by simp [hphase, Phase.holds]) ⟨fun _ => rfl, fun ho => ?_, fun _ => rfl,
      fun _ => hlast, by simp [Phase.last]⟩
    have hended := hf.closed (hf.observed ho)
    simp [hphase] at hended
  | @other act d hothers hd =>
    refine h.foreign hd fun x hx r hr ht => ?_
    have hno : w.foreign r = false := by
      simp only [Stage.foreign, List.all_eq_false]
      exact ⟨x, hx, by simp [hr]⟩
    cases act with
    | release s => exact absurd hothers (by rw [show s = r from ht]; simp [others, hno])
    | refuse s b => exact absurd hothers (by rw [show s = r from ht]; simp [others, hno])
    | hangUp s => exact absurd hothers (by rw [show s = r from ht]; simp [others, hno])
    | _ => exact ht

theorem claiming_run {as : List Action} (hrun : Machine.run step {} as = some w) : w.Claiming :=
  Machine.run_invariant (fun _ _ _ h hs => claiming_step h hs) hrun Claims.init

/-- Sessions stay in their places, with their peers and registrations. -/
def Keeps (w w' : Stage) : Prop :=
  ∀ (s : Nat) (x : Hosted), w.sessions[s]? = some x →
    ∃ x', w'.sessions[s]? = some x' ∧ x'.peer = x.peer ∧ x'.registration = x.registration

theorem Keeps.refl (w : Stage) : Keeps w w := fun _ x hx => ⟨x, hx, rfl, rfl⟩

theorem Keeps.trans {w w₁ w₂ : Stage} (h : Keeps w w₁) (h' : Keeps w₁ w₂) : Keeps w w₂ := by
  intro s x hx
  obtain ⟨x₁, hx₁, hpeer, hr⟩ := h s x hx
  obtain ⟨x₂, hx₂, hpeer', hr'⟩ := h' s x₁ hx₁
  exact ⟨x₂, hx₂, hpeer'.trans hpeer, hr'.trans hr⟩

theorem keeps_set {s : Nat} {x x' : Hosted} (hx : w.sessions[s]? = some x) (hpeer : x'.peer = x.peer)
    (hr : x'.registration = x.registration) : Keeps w (w.setSession s x') := by
  intro t y hy
  by_cases hst : s = t
  · subst hst
    obtain rfl := Option.some.inj (hx.symm.trans hy)
    exact ⟨x', (Logs.getElem?_set hx).2 (.inl ⟨rfl, rfl⟩), hpeer, hr⟩
  · exact ⟨y, (Logs.getElem?_set hx).2 (.inr ⟨hst, hy⟩), rfl, rfl⟩

theorem Keeps.assign {w₁ : Stage} (h : Keeps w w₁) (p : Nat) (session : Option Nat) : Keeps w (w₁.assign p session) := by
  refine h.trans ?_
  unfold Stage.assign letGo
  split
  · exact .refl w₁
  split
  · exact .refl w₁
  next x hx => exact keeps_set hx rfl rfl

theorem keeps_concat {x : Hosted} (h : w'.sessions = w.sessions ++ [x]) : Keeps w w' := by
  intro s y hy
  exact ⟨y, h ▸ Logs.getElem?_concat.2 (.inl hy), rfl, rfl⟩

theorem keeps_storeFlag {s : Nat} {refuse : Bool} (h : w.storeFlag s refuse = some w') : Keeps w w' := by
  unfold storeFlag at h
  split at h
  · obtain rfl := Option.some.inj h
    exact .refl w
  · obtain ⟨d, -, rfl⟩ := Option.map_eq_some_iff.1 h
    exact .refl w

theorem keeps_step {a : Action} (hs : w.step a = some w') : Keeps w w' := by
  cases step_cases hs with
  | host hidle =>
    unfold host
    split
    · refine Keeps.assign ?_ _ _
      exact keeps_concat rfl
    · exact keeps_concat rfl
  | spawned hmain hx hphase => exact keeps_set hx rfl rfl
  | unspawned hmain hx hphase => exact keeps_set hx rfl rfl
  | @stored p s w₁ hmain hflag => exact (keeps_storeFlag hflag).assign p (some s)
  | failed hmain => exact .refl w
  | idle hidle => exact .refl w
  | close hidle hp hx =>
    refine Keeps.assign ?_ _ none
    exact keeps_set hx rfl rfl
  | poll hidle hp hx hclosed =>
    refine Keeps.assign ?_ _ none
    exact keeps_set hx rfl rfl
  | leave hidle => exact (Keeps.refl w).assign _ none
  | command hx => exact keeps_set hx rfl rfl
  | setField hidle hp => exact .refl w
  | setting hidle hp => exact .refl w
  | @set p before s w₁ hmain hp hflag =>
    have hkeeps : Keeps w w₁ := keeps_storeFlag hflag
    exact hkeeps
  | taken hx => exact keeps_set hx rfl rfl
  | left hx hphase => exact keeps_set hx rfl rfl
  | welcomed hx hr hc => exact keeps_set hx rfl rfl
  | abandoned hx hphase => exact keeps_set hx rfl rfl
  | released hx hphase hr hd => exact keeps_set hx rfl rfl
  | hungUp hx hphase hr hd => exact keeps_set hx rfl rfl
  | reported hx hphase => exact keeps_set hx rfl rfl
  | other hothers hd => exact .refl w

theorem keeps_run {bs : List Action} (hrun : Machine.run step w bs = some w') : Keeps w w' :=
  Machine.run_invariant (I := Keeps w) (fun _ _ _ h hs => h.trans (keeps_step hs)) hrun (.refl w)

/-! ## Hosting again -/

/-- Nobody holds the ALPN but sessions that were told to close, by their peer,
or that are known to have. -/
def Vacated (w : Stage) : Prop :=
  ∀ r, w.dispatcher.protocols.lookup sessionAlpn = some r →
    ∃ x ∈ w.sessions, x.registration = some r ∧ (x.told = true ∨ x.observed = true)

/-- A `host` here obtains the claim, and does not end for want of it. -/
def Obtains (w : Stage) (p : Nat) : Prop :=
  ∀ w₁, w.step (.host p) = some w₁ →
    (∃ x r, w₁.sessions[w.sessions.length]? = some x ∧ x.registration = some r ∧
      w₁.dispatcher.protocols.lookup sessionAlpn = some r) ∧
    ∀ bs w₂ x, Machine.run step w₁ bs = some w₂ → w₂.sessions[w.sessions.length]? = some x →
      x.closed ≠ some alreadyHosting

/-- A session whose claim is dropped does not hold the ALPN. -/
theorem Claiming.holds (h : w.Claiming) {x : Hosted} (hx : x ∈ w.sessions) {r : Nat} (hr : x.registration = some r) :
    w.dispatcher.protocols.lookup sessionAlpn = some r ↔ x.phase.holds = true := by
  obtain ⟨s, hs⟩ := List.getElem?_of_mem hx
  obtain ⟨g, hg, halpn, hlive⟩ := h.owned s x r hs hr
  rw [h.claimed sessionAlpn r]
  constructor
  · rintro ⟨g', hg', hl, -⟩
    obtain rfl := Option.some.inj (hg.symm.trans hg')
    exact hlive.symm.trans hl
  · intro hh
    exact ⟨g, hg, hlive.trans hh, halpn⟩

/-- `host` obtains the claim if nobody holds the ALPN. -/
theorem obtains_iff_free (h : w.Claiming) (hidle : w.main = .idle) (p : Nat) :
    w.Obtains p ↔ sessionAlpn ∉ w.dispatcher.protocols := by
  have hstep : w.step (.host p) = some (w.host p) := by simp [step, hidle]
  constructor
  · intro ho hmem
    obtain ⟨⟨x, r, hx, hr, -⟩, -⟩ := ho _ hstep
    let refused : Hosted := { peer := p, registration := none, phase := .ended, closed := some alreadyHosting }
    let w₀ : Stage := { w with sessions := w.sessions ++ [refused] }
    have hlast : w₀.sessions[w.sessions.length]? = some refused := List.getElem?_concat_length ..
    obtain ⟨x', hx', -, hr'⟩ := (Keeps.refl w₀).assign p (some w.sessions.length) _ _ hlast
    rw [host, if_pos hmem] at hx
    obtain rfl := Option.some.inj (hx.symm.trans hx')
    rw [hr] at hr'
    simp at hr'
  · intro hfree w₁ hw₁
    obtain rfl := Option.some.inj (hstep.symm.trans hw₁)
    have hnew : (w.host p).sessions[w.sessions.length]? =
        some { peer := p, registration := some w.dispatcher.registrations.length, phase := .starting } := by
      simp [host, hfree]
    refine ⟨⟨_, _, hnew, rfl, ?_⟩, fun bs w₂ x hrun hx => ?_⟩
    · simp [host, Dispatcher.register, hfree]
    · obtain ⟨x', hx', -, hr⟩ := keeps_run hrun _ _ hnew
      obtain rfl := Option.some.inj (hx.symm.trans hx')
      have hclaiming : w₂.Claiming := Machine.run_invariant (fun _ _ _ h hs => claiming_step h hs) hrun (h.host p)
      exact (hclaiming.fits x (List.mem_of_getElem? hx)).obtained (by simp [hr])

/-- **Hosting again.** In every state of every run, when nobody holds the ALPN
but sessions that their peers have closed, or whose `Closed` was received, a
`host` obtains the claim if and only if each session that was told to close
has dropped its own. -/
theorem obtains_iff {as : List Action} (hrun : Machine.run step {} as = some w) (hidle : w.main = .idle)
    (hvacated : w.Vacated) (p : Nat) :
    w.Obtains p ↔ ∀ x ∈ w.sessions, x.told = true → x.phase.holds = false := by
  have h : w.Claiming := claiming_run hrun
  rw [obtains_iff_free h hidle]
  constructor
  · intro hfree x hx _
    cases hr : x.registration with
    | none =>
      rw [(h.fits x hx).refused hr]
      rfl
    | some r =>
      have hno : w.dispatcher.protocols.lookup sessionAlpn ≠ some r := by
        rw [AList.lookup_eq_none.2 hfree]
        simp
      rw [← Bool.not_eq_true]
      exact fun hh => hno ((h.holds hx hr).2 hh)
  · intro hdropped hmem
    obtain ⟨r, hr⟩ := Option.isSome_iff_exists.1 (AList.lookup_isSome.2 hmem)
    obtain ⟨x, hx, hreg, htold | hobserved⟩ := hvacated r hr
    · have hh := (h.holds hx hreg).1 hr
      simp [hdropped x hx htold] at hh
    · -- The claim goes before the last event.
      have hf := h.fits x hx
      have hh := (h.holds hx hreg).1 hr
      simp [hf.closed (hf.observed hobserved), Phase.holds] at hh

/-- A peer hosts, and closes. -/
def hostAndClose : List Action :=
  [.host 0, .other (.keys 0 [sessionAlpn]), .other (.setAlpns 0), .spawn true, .store, .close 0]

/-- The task takes the `Close` and drops its claim. -/
theorem obtains_iff_released : ∃ w, Machine.run step {} (hostAndClose ++ [.turn 0, .release 0]) = some w ∧
    w.Obtains 0 := by
  have hrun : ((Machine.run step {} (hostAndClose ++ [.turn 0, .release 0])).map fun w =>
      (w.main, w.dispatcher.protocols.lookup sessionAlpn, w.sessions.map fun x => x.phase.holds)) =
      some (.idle, none, [false]) := by
    decide +kernel
  obtain ⟨w, hs, he⟩ := Option.map_eq_some_iff.1 hrun
  simp only [Prod.mk.injEq] at he
  obtain ⟨hidle, hlookup, hphases⟩ := he
  refine ⟨w, hs, (obtains_iff hs hidle (fun r hr => ?_) 0).2 fun x hx _ => ?_⟩
  · simp [hlookup] at hr
  · have hmem : x.phase.holds ∈ w.sessions.map fun x => x.phase.holds := List.mem_map_of_mem hx
    rw [hphases] at hmem
    exact List.mem_singleton.1 hmem

/-- **Closed, and still in the way.** The task has not had its turn yet. -/
theorem close_keeps_claim : ¬ ∀ as w p, Machine.run step {} as = some w → w.main = .idle → w.Vacated →
    w.Obtains p := by
  intro hall
  have hrun : ((Machine.run step {} hostAndClose).map fun w =>
      (w.main, w.dispatcher.protocols.lookup sessionAlpn, w.sessions.map fun x => (x.registration, x.told))) =
      some (.idle, some 0, [(some 0, true)]) := by
    decide +kernel
  obtain ⟨w, hs, he⟩ := Option.map_eq_some_iff.1 hrun
  simp only [Prod.mk.injEq] at he
  obtain ⟨hidle, hlookup, hsessions⟩ := he
  have hvacated : w.Vacated := by
    intro r hr
    obtain rfl := Option.some.inj (hlookup.symm.trans hr)
    have hmem : (some 0, true) ∈ w.sessions.map fun x => (x.registration, x.told) := by simp [hsessions]
    obtain ⟨x, hx, hxe⟩ := List.mem_map.1 hmem
    simp only [Prod.mk.injEq] at hxe
    exact ⟨x, hx, hxe.1, .inl hxe.2⟩
  refine (obtains_iff_free (claiming_run hs) hidle 0).1 (hall _ w 0 hs hidle hvacated) ?_
  exact AList.lookup_isSome.1 (by simp [hlookup])

end Stage
end Gdiroh
