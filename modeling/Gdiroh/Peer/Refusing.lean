/-
Whether a peer that refuses new connections has them turned away.

The peer's field is one thing and the flag that `dispatch` reads is another.
`refuses_iff`: a connection whose lookup falls into a time at which the field
of the hosting peer is set is closed, and never comes to a session, if and
only if the main thread is not on its way from the one to the other: neither
in `host`, between the registration and the store, nor in
`set_refuse_new_connections`, between setting the field and the store.
-/
import Gdiroh.Peer.Rehosting

namespace Gdiroh

open Dispatch Endpoint Session

namespace Dispatch.Dispatcher

theorem refuses_eq {d : Dispatcher} {r : Nat} {g : Registration} (h : d.registrations[r]? = some g) :
    d.refuses r = g.refuse := by
  simp [refuses, h]

/-- Nothing but its owner's store changes a flag. -/
theorem step_refuses {d d' : Dispatcher} {a : Act} (hs : step d a = some d') {r : Nat} {g : Registration}
    (hr : d.registrations[r]? = some g) (ha : ∀ b, a ≠ .refuse r b) : d'.refuses r = d.refuses r := by
  rw [refuses_eq hr]
  by_cases ht : a.touches r
  · cases a with
    | release s =>
      obtain rfl : s = r := ht
      rw [refuses_eq (release_registration hr hs)]
    | hangUp s =>
      obtain rfl : s = r := ht
      rw [refuses_eq (hangUp_registration hr hs)]
    | refuse s b => exact absurd (show Act.refuse s b = .refuse r b by rw [show s = r from ht]) (ha b)
    | _ => exact absurd ht id
  · exact refuses_eq (step_registration hs hr ht)

theorem refuse_refuses {d d' : Dispatcher} {r : Nat} {b : Bool} (hs : step d (.refuse r b) = some d') :
    d'.refuses r = b ∧ ∀ q, q ≠ r → d'.refuses q = d.refuses q := by
  cases step_cases hs with
  | @refuse _ g _ hr =>
    refine ⟨refuses_eq (refuse_registration hr hs), fun q hq => ?_⟩
    simp [refuses, setRegistration, List.getElem?_set_ne (Ne.symm hq)]

theorem sent_step {d d' : Dispatcher} {a : Act} (hs : step d a = some d') {sent : Nat × Nat} (h : sent ∈ d.sent) :
    sent ∈ d'.sent := by
  cases step_cases hs with
  | sent hi =>
    unfold send
    dsimp only
    split
    · exact List.mem_append_left _ h
    · exact h
  | _ => exact h

/-- A connection that is closed stays closed. -/
theorem closed_step {d d' : Dispatcher} {a : Act} (hs : step d a = some d') {i : Nat} {code : UInt32} {reason : String}
    (hi : d.arrivals[i]? = some (.closed code reason)) : d'.arrivals[i]? = some (.closed code reason) := by
  have hset : ∀ {j : Nat} {old : Routing} (routing : Routing), d.arrivals[j]? = some old →
      old ≠ .closed code reason → (d.arrivals.set j routing)[i]? = some (.closed code reason) := by
    intro j old routing hj hne
    refine (Logs.getElem?_set hj).2 (.inr ⟨?_, hi⟩)
    rintro rfl
    exact hne (Option.some.inj (hj.symm.trans hi))
  have hconcat : ∀ routing, (d.arrivals ++ [routing])[i]? = some (.closed code reason) := fun routing =>
    Logs.getElem?_concat.2 (.inl hi)
  cases step_cases hs with
  | offered alpns => exact hconcat _
  | unreadable => exact hconcat _
  | wanted hj _ => exact hset _ hj (by simp)
  | unwanted hj _ => exact hset _ hj (by simp)
  | turnedAway hj => exact hset _ hj (by simp)
  | failed hj => exact hset _ hj (by simp)
  | connected alpn hj => exact hset _ hj (by simp)
  | routed hj => exact hset _ hj (by simp)
  | sent hj =>
    unfold send
    dsimp only
    split
    · exact hset _ hj (by simp)
    · exact hset _ hj (by simp)
  | _ => exact hi

end Dispatch.Dispatcher

/-- The call of `host` that this session comes from is under way. -/
def Main.starts (p s : Nat) : Main → Prop
  | .registering q t | .failing q t | .storing q t => q = p ∧ t = s
  | _ => False

namespace Stage

variable {w w' : Stage}

/-- What the refuse flag of a peer's session is to be: its field, or what the
field was if that is still to be stored. -/
def stored (w : Stage) (p : Nat) : Bool :=
  match w.main with
  | .setting q before => if q = p then before else (w.peers p).refuseNewConnections
  | _ => (w.peers p).refuseNewConnections

/-- The flags, by peers. -/
structure Flagged (w : Stage) : Prop where
  there : ∀ p s, (w.peers p).session = some s → ∃ x : Hosted, w.sessions[s]? = some x ∧ x.peer = p
  flag : ∀ p s (x : Hosted) r, (w.peers p).session = some s → w.sessions[s]? = some x → x.registration = some r →
    w.dispatcher.refuses r = w.stored p
  starting : ∀ p s, w.main.starts p s → ∃ (x : Hosted) (r : Nat), w.sessions[s]? = some x ∧ x.peer = p ∧
    x.registration = some r ∧ w.dispatcher.refuses r = false ∧ ∀ q, (w.peers q).session ≠ some s

theorem flagged_init : Flagged {} where
  there := by simp
  flag := by simp
  starting := by simp [Main.starts]

@[simp] theorem letGo_peers (w : Stage) (p : Nat) : (w.letGo p).peers = w.peers := by
  unfold letGo
  split
  · rfl
  split <;> rfl

@[simp] theorem letGo_dispatcher (w : Stage) (p : Nat) : (w.letGo p).dispatcher = w.dispatcher := by
  unfold letGo
  split
  · rfl
  split <;> rfl

@[simp] theorem letGo_main (w : Stage) (p : Nat) : (w.letGo p).main = w.main := by
  unfold letGo
  split
  · rfl
  split <;> rfl

/-- No flag changes, and no peer gets a session. -/
theorem Flagged.kept (h : w.Flagged) (hkeeps : Keeps w w')
    (hpeers : ∀ p s, (w'.peers p).session = some s → (w.peers p).session = some s)
    (hstored : ∀ p s, (w'.peers p).session = some s → w'.stored p = w.stored p)
    (hstarts : ∀ p s, w'.main.starts p s → w.main.starts p s)
    (hflags : ∀ x ∈ w.sessions, ∀ r, x.registration = some r → w'.dispatcher.refuses r = w.dispatcher.refuses r) :
    w'.Flagged where
  there := by
    intro p s hp
    obtain ⟨x, hx, hpeer⟩ := h.there p s (hpeers p s hp)
    obtain ⟨x', hx', hpeer', -⟩ := hkeeps s x hx
    exact ⟨x', hx', hpeer'.trans hpeer⟩
  flag := by
    intro p s x' r hp hx' hr
    obtain ⟨x, hx, -⟩ := h.there p s (hpeers p s hp)
    obtain ⟨y, hy, -, hry⟩ := hkeeps s x hx
    obtain rfl := Option.some.inj (hx'.symm.trans hy)
    rw [hflags x (List.mem_of_getElem? hx) r (hry.symm.trans hr), hstored p s hp]
    exact h.flag p s x r (hpeers p s hp) hx (hry.symm.trans hr)
  starting := by
    intro p s hs
    obtain ⟨x, r, hx, hpeer, hr, hflag, hno⟩ := h.starting p s (hstarts p s hs)
    obtain ⟨x', hx', hpeer', hr'⟩ := hkeeps s x hx
    exact ⟨x', r, hx', hpeer'.trans hpeer, hr'.trans hr,
      (hflags x (List.mem_of_getElem? hx) r hr).trans hflag, fun q hq => hno q (hpeers q s hq)⟩

/-- A session goes on. -/
theorem Flagged.set (h : w.Flagged) {s : Nat} {x x' : Hosted} (hx : w.sessions[s]? = some x) (hpeer : x'.peer = x.peer)
    (hr : x'.registration = x.registration) : (w.setSession s x').Flagged :=
  h.kept (keeps_set hx hpeer hr) (fun _ _ hp => hp) (fun _ _ _ => rfl) (fun _ _ hs => hs) fun _ _ _ _ => rfl

theorem assign_peers (w : Stage) (p : Nat) (session : Option Nat) (q : Nat) :
    (w.assign p session).peers q = if q = p then { w.peers p with session := session } else w.peers q := by
  simp [assign, setPeer, Function.update_apply]

theorem setPeer_session (w : Stage) (p : Nat) (refuse : Bool) (q : Nat) :
    ((w.setPeer p { w.peers p with refuseNewConnections := refuse }).peers q).session = (w.peers q).session := by
  by_cases hqp : q = p
  · simp [setPeer, hqp]
  · simp [setPeer, hqp]

/-- A peer lets its session go. -/
theorem Flagged.leave (h : w.Flagged) (p : Nat) : (w.assign p none).Flagged := by
  refine h.kept ((Keeps.refl w).assign p none) (fun q s hq => ?_) (fun q s hq => ?_) (fun q s hs => ?_)
    fun x _ r _ => ?_
  · rw [assign_peers] at hq
    split at hq
    · simp at hq
    · exact hq
  · rw [assign_peers] at hq
    split at hq
    · simp at hq
    next hne => simp [stored, assign, setPeer, hne]
  · simpa [assign, setPeer] using hs
  · simp [assign, setPeer]

/-- What the store of a session's flag comes to. -/
theorem storeFlag_cases {s : Nat} {b : Bool} (h : w.storeFlag s b = some w') :
    w'.sessions = w.sessions ∧ w'.peers = w.peers ∧ w'.main = w.main ∧
    (∀ (x : Hosted) (r : Nat), w.sessions[s]? = some x → x.registration = some r → w'.dispatcher.refuses r = b) ∧
    ∀ q, (∀ x : Hosted, w.sessions[s]? = some x → x.registration ≠ some q) →
      w'.dispatcher.refuses q = w.dispatcher.refuses q := by
  unfold storeFlag at h
  split at h
  next hnone =>
    obtain rfl := Option.some.inj h
    refine ⟨rfl, rfl, rfl, fun x r hx hr => ?_, fun _ _ => rfl⟩
    simp [hx, hr] at hnone
  next r hr =>
    obtain ⟨d, hd, rfl⟩ := Option.map_eq_some_iff.1 h
    obtain ⟨x, hx, hr⟩ := Option.bind_eq_some_iff.1 hr
    obtain ⟨hown, hother⟩ := Dispatcher.refuse_refuses hd
    refine ⟨rfl, rfl, rfl, fun y q hy hq => ?_, fun q hq => hother q fun he => hq x hx (he ▸ hr)⟩
    obtain rfl := Option.some.inj (hx.symm.trans hy)
    obtain rfl := Option.some.inj (hr.symm.trans hq)
    exact hown

/-- A store leaves the flags of the other sessions. -/
theorem Claiming.storeFlag_other (h : w.Claiming) {s t : Nat} {b : Bool} (hstore : w.storeFlag s b = some w')
    (hst : t ≠ s) {y : Hosted} (hy : w.sessions[t]? = some y) {r : Nat} (hr : y.registration = some r) :
    w'.dispatcher.refuses r = w.dispatcher.refuses r :=
  (storeFlag_cases hstore).2.2.2.2 r fun x hx hxr => hst (h.distinct t s y x r hy hx hr hxr)

theorem stored_idle (hidle : w.main = .idle) (p : Nat) : w.stored p = (w.peers p).refuseNewConnections := by
  rw [stored, hidle]

theorem stored_setting {p : Nat} {before : Bool} (hmain : w.main = .setting p before) (q : Nat) :
    w.stored q = if p = q then before else (w.peers q).refuseNewConnections := by
  rw [stored, hmain]

/-- A peer takes up a session, the flag of which is as its field. -/
theorem flagged_take {p s : Nat} {x : Hosted}
    (hthere : ∀ q t, (w.peers q).session = some t → ∃ y : Hosted, w.sessions[t]? = some y ∧ y.peer = q)
    (hflags : ∀ q t (y : Hosted) r, (w.peers q).session = some t → w.sessions[t]? = some y → y.registration = some r →
      w.dispatcher.refuses r = (w.peers q).refuseNewConnections)
    (hx : w.sessions[s]? = some x) (hpeer : x.peer = p)
    (hflag : ∀ r, x.registration = some r → w.dispatcher.refuses r = (w.peers p).refuseNewConnections)
    (hidle : w'.main = .idle) (hd : w'.dispatcher = w.dispatcher) (hkeeps : Keeps w w')
    (hpeers : ∀ q, w'.peers q = if q = p then { w.peers p with session := some s } else w.peers q) : w'.Flagged := by
  have hstored : ∀ q, w'.stored q = (w.peers q).refuseNewConnections := by
    intro q
    rw [stored_idle hidle, hpeers]
    split
    next he => rw [he]
    · rfl
  refine ⟨fun q t hq => ?_, fun q t y r hq hy hr => ?_, fun q t hs => by simp [hidle, Main.starts] at hs⟩
  · rw [hpeers] at hq
    split at hq
    next he =>
      obtain rfl := Option.some.inj hq
      obtain ⟨x', hx', hpeer', -⟩ := hkeeps s x hx
      exact ⟨x', hx', by rw [hpeer', hpeer, he]⟩
    · obtain ⟨y, hy, hyq⟩ := hthere q t hq
      obtain ⟨y', hy', hpeer', -⟩ := hkeeps t y hy
      exact ⟨y', hy', hpeer'.trans hyq⟩
  · rw [hd, hstored]
    rw [hpeers] at hq
    split at hq
    next he =>
      obtain rfl := Option.some.inj hq
      obtain ⟨x', hx', -, hr'⟩ := hkeeps s x hx
      obtain rfl := Option.some.inj (hy.symm.trans hx')
      rw [he]
      exact hflag r (hr'.symm.trans hr)
    · obtain ⟨z, hz, -⟩ := hthere q t hq
      obtain ⟨z', hz', -, hr'⟩ := hkeeps t z hz
      obtain rfl := Option.some.inj (hy.symm.trans hz')
      exact hflags q t z r hq hz (hr'.symm.trans hr)

theorem Flagged.host (h : w.Flagged) (hc : w.Claiming) (hidle : w.main = .idle) (p : Nat) : (w.host p).Flagged := by
  have hflags : ∀ q t (y : Hosted) r, (w.peers q).session = some t → w.sessions[t]? = some y →
      y.registration = some r → w.dispatcher.refuses r = (w.peers q).refuseNewConnections := by
    intro q t y r hq hy hr
    rw [← stored_idle hidle]
    exact h.flag q t y r hq hy hr
  have hold : ∀ {x y : Hosted} {t : Nat}, w.sessions[t]? = some y → (w.sessions ++ [x])[t]? = some y := fun hy =>
    Logs.getElem?_concat.2 (.inl hy)
  unfold Stage.host
  split
  · let refused : Hosted := { peer := p, registration := none, phase := .ended, closed := some alreadyHosting }
    let w₀ : Stage := { w with sessions := w.sessions ++ [refused] }
    refine flagged_take (w := w₀) (x := refused) (fun q t hq => ?_) (fun q t y r hq hy hr => ?_)
      (List.getElem?_concat_length ..) rfl (by simp [refused]) ?_ ?_ ((Keeps.refl w₀).assign p _) (assign_peers w₀ p _)
    · obtain ⟨y, hy, hyq⟩ := h.there q t hq
      exact ⟨y, hold hy, hyq⟩
    · obtain ⟨z, hz, -⟩ := h.there q t hq
      obtain rfl := Option.some.inj ((hold hz).symm.trans hy)
      exact hflags q t z r hq hz hr
    · simp [assign, setPeer, hidle]
    · simp [assign, setPeer, w₀]
  next hnew =>
    have hd : w.dispatcher.step (.register sessionAlpn) = some (w.dispatcher.register sessionAlpn) := rfl
    refine ⟨fun q t hq => ?_, fun q t y r hq hy hr => ?_, fun q t hs => ?_⟩
    · obtain ⟨y, hy, hyq⟩ := h.there q t hq
      exact ⟨y, hold hy, hyq⟩
    · obtain ⟨z, hz, -⟩ := h.there q t hq
      obtain rfl := Option.some.inj ((hold hz).symm.trans hy)
      obtain ⟨g, hg, -⟩ := hc.owned t z r hz hr
      exact (Dispatcher.step_refuses hd hg (by simp)).trans (hflags q t z r hq hz hr)
    · obtain ⟨rfl, rfl⟩ : p = q ∧ w.sessions.length = t := hs
      refine ⟨_, _, List.getElem?_concat_length .., rfl, rfl, ?_, fun q hq => ?_⟩
      · simp [Dispatcher.refuses, Dispatcher.register, hnew]
      · obtain ⟨y, hy, -⟩ := h.there q _ hq
        simp at hy

/-- What `host` makes of a session in the end. -/
theorem Flagged.store (h : w.Flagged) (hc : w.Claiming) {p s : Nat} {w₁ : Stage} (hmain : w.main = .storing p s)
    (hflag : w.storeFlag s (w.peers p).refuseNewConnections = some w₁) :
    Flagged { w₁.assign p (some s) with main := .idle } := by
  obtain ⟨hsessions, hpeers, -, hown, -⟩ := storeFlag_cases hflag
  obtain ⟨x, r, hx, hpeer, hr, -, hno⟩ := h.starting p s (by simp [hmain, Main.starts])
  have hstored : ∀ q, w.stored q = (w.peers q).refuseNewConnections := fun q => by rw [stored, hmain]
  refine flagged_take (w := w₁) (x := x) (s := s) (p := p) (fun q t hq => ?_) (fun q t y r hq hy hr => ?_)
    (hsessions ▸ hx) hpeer (fun r hr => ?_) rfl (by simp [assign, setPeer])
    ((Keeps.refl w₁).assign p (some s)) (assign_peers w₁ p (some s))
  · rw [hpeers] at hq
    rw [hsessions]
    exact h.there q t hq
  · rw [hpeers] at hq ⊢
    rw [hsessions] at hy
    have hts : t ≠ s := fun he => hno q (he ▸ hq)
    rw [hc.storeFlag_other hflag hts hy hr, h.flag q t y r hq hy hr, hstored]
  · rw [hpeers]
    exact hown x r hx hr

/-- What `set_refuse_new_connections` makes of a session in the end. -/
theorem Flagged.storeRefuse (h : w.Flagged) (hc : w.Claiming) {p s : Nat} {before : Bool} {w₁ : Stage}
    (hmain : w.main = .setting p before) (hp : (w.peers p).session = some s)
    (hflag : w.storeFlag s (w.peers p).refuseNewConnections = some w₁) : Flagged { w₁ with main := .idle } := by
  obtain ⟨hsessions, hpeers, -, hown, -⟩ := storeFlag_cases hflag
  obtain ⟨x, hx, hpeer⟩ := h.there p s hp
  refine ⟨fun q t hq => ?_, fun q t y r hq hy hr => ?_, fun q t hs => absurd hs id⟩
  · dsimp only at hq ⊢
    rw [hpeers] at hq
    rw [hsessions]
    exact h.there q t hq
  · dsimp only at hq hy ⊢
    rw [hpeers] at hq
    rw [hsessions] at hy
    rw [stored_idle rfl]
    dsimp only
    rw [hpeers]
    by_cases hts : t = s
    · subst hts
      obtain ⟨y', hy', hyq⟩ := h.there q t hq
      obtain rfl := Option.some.inj (hy.symm.trans hy')
      obtain rfl := Option.some.inj (hx.symm.trans hy)
      obtain rfl : p = q := hpeer.symm.trans hyq
      exact hown x r hx hr
    · have hqp : q ≠ p := fun he => hts (Option.some.inj (hq.symm.trans (he ▸ hp)))
      rw [hc.storeFlag_other hflag hts hy hr, h.flag q t y r hq hy hr, stored_setting hmain, if_neg (Ne.symm hqp)]

theorem flagged_step {a : Action} (h : w.Flagged) (hc : w.Claiming) (hs : w.step a = some w') : w'.Flagged := by
  -- A step of the dispatcher that is no store of a session's flag.
  have hflags : ∀ {act : Act} {d : Dispatcher}, w.dispatcher.step act = some d →
      (∀ x ∈ w.sessions, ∀ r, x.registration = some r → ∀ b, act ≠ .refuse r b) →
      ∀ x ∈ w.sessions, ∀ r, x.registration = some r → d.refuses r = w.dispatcher.refuses r := by
    intro act d hd hact x hx r hr
    obtain ⟨s, hxs⟩ := List.getElem?_of_mem hx
    obtain ⟨g, hg, -⟩ := hc.owned s x r hxs hr
    exact Dispatcher.step_refuses hd hg (hact x hx r hr)
  cases step_cases hs with
  | host hidle => exact h.host hc hidle _
  | spawned hmain hx hphase =>
    refine h.kept (keeps_set hx rfl rfl) (fun _ _ hp => hp) (fun q _ _ => ?_) (fun q t hst => ?_) fun _ _ _ _ => rfl
    · simp [stored, hmain, setSession]
    · rw [hmain]
      exact hst
  | unspawned hmain hx hphase =>
    refine h.kept (keeps_set hx rfl rfl) (fun _ _ hp => hp) (fun q _ _ => ?_) (fun q t hst => ?_) fun _ _ _ _ => rfl
    · simp [stored, hmain, setSession]
    · rw [hmain]
      exact hst
  | stored hmain hflag => exact h.store hc hmain hflag
  | failed hmain =>
    refine h.kept (.refl w) (fun _ _ hp => hp) (fun q _ _ => ?_) (fun q t hst => ?_) fun _ _ _ _ => rfl
    · simp [stored, hmain]
    · rw [hmain]
      exact hst
  | idle hidle => exact h
  | close hidle hp hx =>
    refine Flagged.leave ?_ _
    exact h.set hx rfl rfl
  | poll hidle hp hx hclosed =>
    refine Flagged.leave ?_ _
    exact h.set hx rfl rfl
  | leave hidle => exact h.leave _
  | command hx => exact h.set hx rfl rfl
  | @setField p refuse hidle hp =>
    have hsame : ∀ q s, ((w.setPeer p { w.peers p with refuseNewConnections := refuse }).peers q).session = some s →
        (w.peers q).session = some s := fun q s hq => setPeer_session w p refuse q ▸ hq
    refine h.kept (.refl w) hsame (fun q s hq => ?_) (fun _ _ hst => hst) fun _ _ _ _ => rfl
    have hqp : q ≠ p := by
      intro he
      have hq := hsame q s hq
      rw [he, hp] at hq
      simp at hq
    simp [stored, setPeer, hidle, hqp]
  | @setting p refuse s hidle hp =>
    refine h.kept (.refl w) (fun q s hq => setPeer_session w p refuse q ▸ hq) (fun q s hq => ?_)
      (fun _ _ hst => absurd hst id) fun _ _ _ _ => rfl
    rw [stored_setting rfl, stored_idle hidle]
    by_cases hqp : q = p
    · rw [if_pos hqp.symm, hqp]
    · rw [if_neg (Ne.symm hqp)]
      simp [setPeer, hqp]
  | set hmain hp hflag => exact h.storeRefuse hc hmain hp hflag
  | taken hx => exact h.set hx rfl rfl
  | left hx hphase => exact h.set hx rfl rfl
  | welcomed hx hr hc => exact h.set hx rfl rfl
  | abandoned hx hphase => exact h.set hx rfl rfl
  | released hx hphase hr hd =>
    exact h.kept (keeps_set hx rfl rfl) (fun _ _ hp => hp) (fun _ _ _ => rfl) (fun _ _ hst => hst)
      (hflags hd fun _ _ _ _ _ => by simp)
  | hungUp hx hphase hr hd =>
    exact h.kept (keeps_set hx rfl rfl) (fun _ _ hp => hp) (fun _ _ _ => rfl) (fun _ _ hst => hst)
      (hflags hd fun _ _ _ _ _ => by simp)
  | reported hx hphase => exact h.set hx rfl rfl
  | other hothers hd =>
    refine h.kept (.refl w) (fun _ _ hp => hp) (fun _ _ _ => rfl) (fun _ _ hst => hst) (hflags hd ?_)
    rintro x hx r hr b rfl
    simp only [others, foreign, List.all_eq_true, decide_eq_true_eq] at hothers
    exact hothers x hx hr

/-- Both invariants, along a run. -/
theorem flagged_run {as : List Action} (hrun : Machine.run step {} as = some w) : w.Claiming ∧ w.Flagged :=
  Machine.run_invariant (I := fun w : Stage => w.Claiming ∧ w.Flagged)
    (fun _ _ _ h hs => ⟨claiming_step h.1 hs, flagged_step h.2 h.1 hs⟩) hrun ⟨Claims.init, flagged_init⟩

/-! ## Connections that come to a session -/

/-- A step of the stage is a step of the dispatcher, or none. -/
theorem dispatcher_step {a : Action} (hs : w.step a = some w') :
    w'.dispatcher = w.dispatcher ∨ ∃ act, w.dispatcher.step act = some w'.dispatcher := by
  have hassign : ∀ (w : Stage) p session, (w.assign p session).dispatcher = w.dispatcher := by simp [assign, setPeer]
  have hstore : ∀ {s b} {w₁ : Stage}, w.storeFlag s b = some w₁ →
      w₁.dispatcher = w.dispatcher ∨ ∃ act, w.dispatcher.step act = some w₁.dispatcher := by
    intro s b w₁ h
    unfold storeFlag at h
    split at h
    · obtain rfl := Option.some.inj h
      exact .inl rfl
    · obtain ⟨d, hd, rfl⟩ := Option.map_eq_some_iff.1 h
      exact .inr ⟨_, hd⟩
  cases step_cases hs with
  | host hidle =>
    unfold host
    split
    · exact .inl (hassign _ _ _)
    · exact .inr ⟨.register sessionAlpn, rfl⟩
  | stored hmain hflag =>
    dsimp only
    rw [hassign]
    exact hstore hflag
  | close hidle hp hx => exact .inl (hassign _ _ none)
  | poll hidle hp hx hclosed => exact .inl (hassign _ _ none)
  | leave hidle => exact .inl (hassign _ _ none)
  | @set p before s w₁ hmain hp hflag =>
    have hd := hstore hflag
    exact hd
  | released hx hphase hr hd => exact .inr ⟨_, hd⟩
  | hungUp hx hphase hr hd => exact .inr ⟨_, hd⟩
  | other hothers hd => exact .inr ⟨_, hd⟩
  | _ => exact .inl rfl

/-- A run of the stage is a run of its dispatcher. -/
theorem dispatcher_run {as : List Action} (hrun : Machine.run step {} as = some w) :
    ∃ acts, Machine.run Dispatcher.step {} acts = some w.dispatcher := by
  refine Machine.run_invariant (I := fun w : Stage => ∃ acts, Machine.run Dispatcher.step {} acts = some w.dispatcher)
    (fun w a w' h hs => ?_) hrun ⟨[], rfl⟩
  obtain ⟨acts, hacts⟩ := h
  rcases dispatcher_step hs with he | ⟨act, hact⟩
  · exact ⟨acts, he ▸ hacts⟩
  · exact ⟨acts ++ [act], Machine.run_concat.2 ⟨_, hacts, hact⟩⟩

/-- Every connection welcomed was sent by the dispatcher. -/
def Welcoming (w : Stage) : Prop := ∀ x ∈ w.sessions, ∀ i ∈ x.welcomed, ∃ r, (i, r) ∈ w.dispatcher.sent

theorem Welcoming.set (h : w.Welcoming) {s : Nat} {x x' : Hosted} (hx : w.sessions[s]? = some x)
    (hnew : ∀ i ∈ x'.welcomed, i ∈ x.welcomed ∨ ∃ r, (i, r) ∈ w.dispatcher.sent) : (w.setSession s x').Welcoming := by
  intro y hy i hi
  rcases List.mem_or_eq_of_mem_set hy with hy | rfl
  · exact h y hy i hi
  · rcases hnew i hi with hold | hsent
    · exact h x (List.mem_of_getElem? hx) i hold
    · exact hsent

theorem Welcoming.assign (h : w.Welcoming) (p : Nat) (session : Option Nat) : (w.assign p session).Welcoming := by
  unfold Stage.assign letGo
  split
  · exact h
  split
  · exact h
  next hx => exact h.set hx fun i hi => .inl hi

theorem Welcoming.concat (h : w.Welcoming) {x : Hosted} (hx : x.welcomed = []) (hs : w'.sessions = w.sessions ++ [x])
    (hd : w'.dispatcher.sent = w.dispatcher.sent) : w'.Welcoming := by
  intro y hy i hi
  rw [hs] at hy
  rcases List.mem_append.1 hy with hy | hy
  · rw [hd]
    exact h y hy i hi
  · rw [List.mem_singleton.1 hy, hx] at hi
    simp at hi

/-- The dispatcher goes on. -/
theorem Welcoming.dispatch (h : w.Welcoming) {act : Act} {d : Dispatcher} (hd : w.dispatcher.step act = some d) :
    Welcoming { w with dispatcher := d } := by
  intro x hx i hi
  obtain ⟨r, hr⟩ := h x hx i hi
  exact ⟨r, Dispatcher.sent_step hd hr⟩

theorem Welcoming.storeFlag (h : w.Welcoming) {s : Nat} {b : Bool} (hs : w.storeFlag s b = some w') : w'.Welcoming := by
  unfold Stage.storeFlag at hs
  split at hs
  · obtain rfl := Option.some.inj hs
    exact h
  · obtain ⟨d, hd, rfl⟩ := Option.map_eq_some_iff.1 hs
    exact h.dispatch hd

theorem welcoming_step {a : Action} (h : w.Welcoming) (hs : w.step a = some w') : w'.Welcoming := by
  cases step_cases hs with
  | host hidle =>
    unfold host
    split
    · refine Welcoming.assign ?_ _ _
      exact h.concat rfl rfl rfl
    next hnew => exact h.concat rfl rfl (by simp [Dispatcher.register, hnew])
  | spawned hmain hx hphase => exact h.set hx fun i hi => .inl hi
  | unspawned hmain hx hphase => exact h.set hx fun i hi => .inl hi
  | @stored p s w₁ hmain hflag =>
    have hw₁ : w₁.Welcoming := h.storeFlag hflag
    exact hw₁.assign p (some s)
  | close hidle hp hx =>
    refine Welcoming.assign ?_ _ none
    exact h.set hx fun i hi => .inl hi
  | poll hidle hp hx hclosed =>
    refine Welcoming.assign ?_ _ none
    exact h.set hx fun i hi => .inl hi
  | leave hidle => exact h.assign _ none
  | command hx => exact h.set hx fun i hi => .inl hi
  | @set p before s w₁ hmain hp hflag =>
    have hw₁ : w₁.Welcoming := h.storeFlag hflag
    exact hw₁
  | taken hx => exact h.set hx fun i hi => .inl hi
  | left hx hphase => exact h.set hx fun i hi => .inl hi
  | welcomed hx hr hc =>
    refine h.set hx fun i hi => ?_
    rcases List.mem_append.1 hi with hi | hi
    · exact .inl hi
    · rw [List.mem_singleton.1 hi]
      obtain ⟨⟨j, r⟩, hj, rfl⟩ := List.mem_map.1 hc
      exact .inr ⟨r, (List.mem_filter.1 hj).1⟩
  | abandoned hx hphase => exact h.set hx fun i hi => .inl hi
  | released hx hphase hr hd =>
    refine Welcoming.dispatch (w := w.setSession _ _) ?_ hd
    exact h.set hx fun i hi => .inl hi
  | hungUp hx hphase hr hd =>
    refine Welcoming.dispatch (w := w.setSession _ _) ?_ hd
    exact h.set hx fun i hi => .inl hi
  | reported hx hphase => exact h.set hx fun i hi => .inl hi
  | other hothers hd => exact h.dispatch hd
  | _ => exact h

/-! ## Refusing -/

/-- The lookup for this connection closes it, and it never comes to a
session. -/
def Refuses (w : Stage) (i : Nat) : Prop :=
  ∀ w₁, w.step (.other (.lookup i)) = some w₁ →
    w₁.dispatcher.arrivals[i]? = some (.closed refused "not accepting connections") ∧
    ∀ bs w₂, Machine.run step w₁ bs = some w₂ → (∀ r, (i, r) ∉ w₂.dispatcher.sent) ∧ ∀ x ∈ w₂.sessions, i ∉ x.welcomed

/-- The peer has the session, or is about to, in its `host`. -/
def HostedBy (w : Stage) (p s : Nat) : Prop := (w.peers p).session = some s ∨ w.main.starts p s

/-- The main thread has yet to bring the session's flag after the peer's
field. -/
def Behind (w : Stage) (p s : Nat) : Prop := w.main.starts p s ∨ w.main = .setting p false

theorem closed_run {bs : List Action} (hrun : Machine.run step w bs = some w') {i : Nat} {code : UInt32}
    {reason : String} (hi : w.dispatcher.arrivals[i]? = some (.closed code reason)) :
    w'.dispatcher.arrivals[i]? = some (.closed code reason) := by
  refine Machine.run_invariant (I := fun w : Stage => w.dispatcher.arrivals[i]? = some (.closed code reason))
    (fun w a w' h hs => ?_) hrun hi
  rcases dispatcher_step hs with he | ⟨act, hact⟩
  · rw [he]
    exact h
  · exact Dispatcher.closed_step hact h

/-- What is closed was not sent, so nobody welcomed it. -/
theorem not_welcomed {as : List Action} (hrun : Machine.run step {} as = some w) {i : Nat} {code : UInt32}
    {reason : String} (hi : w.dispatcher.arrivals[i]? = some (.closed code reason)) :
    (∀ r, (i, r) ∉ w.dispatcher.sent) ∧ ∀ x ∈ w.sessions, i ∉ x.welcomed := by
  obtain ⟨acts, hacts⟩ := dispatcher_run hrun
  have hsent : ∀ r, (i, r) ∉ w.dispatcher.sent := by
    intro r hm
    have hover := ((Dispatcher.routed_run hacts).sent i r hm).1
    simp [hi] at hover
  have hw : w.Welcoming := Machine.run_invariant (fun _ _ _ h hs => welcoming_step h hs) hrun fun x hx => by simp at hx
  refine ⟨hsent, fun x hx hm => ?_⟩
  obtain ⟨r, hr⟩ := hw x hx i hm
  exact hsent r hr

/-- The connection is refused if the flag is set. -/
theorem refuses_iff_flag {as : List Action} (hrun : Machine.run step {} as = some w) {i r : Nat}
    (hi : w.dispatcher.arrivals[i]? = some (.connected sessionAlpn))
    (hr : w.dispatcher.protocols.lookup sessionAlpn = some r) : w.Refuses i ↔ w.dispatcher.refuses r = true := by
  have hstep : w.step (.other (.lookup i)) = some { w with
      dispatcher := w.dispatcher.setArrival i (.ofRoute (w.dispatcher.route sessionAlpn)) } := by
    simp [step, others, Dispatcher.step, hi]
  have hlt : i < w.dispatcher.arrivals.length := (List.getElem?_eq_some_iff.1 hi).1
  constructor
  · intro h
    have hclosed := (h _ hstep).1
    simp only [Dispatcher.setArrival, List.getElem?_set_self hlt, Option.some.injEq, Dispatcher.route, hr] at hclosed
    split at hclosed
    next hf => exact hf
    · simp [Routing.ofRoute] at hclosed
  · intro hf w₁ hw₁
    obtain rfl := Option.some.inj (hstep.symm.trans hw₁)
    have hclosed : (w.dispatcher.setArrival i (.ofRoute (w.dispatcher.route sessionAlpn))).arrivals[i]? =
        some (.closed refused "not accepting connections") := by
      simp only [Dispatcher.setArrival, List.getElem?_set_self hlt, Dispatcher.route, hr, hf, if_true, Routing.ofRoute]
    refine ⟨hclosed, fun bs w₂ hbs => ?_⟩
    have hrun₂ : Machine.run step {} (as ++ .other (.lookup i) :: bs) = some w₂ :=
      Machine.run_append.2 ⟨w, hrun, Machine.run_cons.2 ⟨_, hstep, hbs⟩⟩
    exact not_welcomed hrun₂ (closed_run hbs hclosed)

/-- **Refusing new connections.** In every state of every run, when a
connection is about to be looked up, and the peer hosting the session it is
for has its field set, the connection is closed and comes to no session, if
and only if the main thread is not behind with the flag. -/
theorem refuses_iff {as : List Action} (hrun : Machine.run step {} as = some w) {i p s r : Nat} {x : Hosted}
    (hi : w.dispatcher.arrivals[i]? = some (.connected sessionAlpn))
    (hr : w.dispatcher.protocols.lookup sessionAlpn = some r) (hx : w.sessions[s]? = some x)
    (hxr : x.registration = some r) (hp : w.HostedBy p s) (hfield : (w.peers p).refuseNewConnections = true) :
    w.Refuses i ↔ ¬ w.Behind p s := by
  obtain ⟨-, h⟩ := flagged_run hrun
  rw [refuses_iff_flag hrun hi hr]
  rcases hp with hp | hstarts
  · rw [h.flag p s x r hp hx hxr]
    have hno : ¬ w.main.starts p s := by
      intro hs
      obtain ⟨-, -, -, -, -, -, hno⟩ := h.starting p s hs
      exact hno p hp
    simp only [Behind, hno, false_or]
    cases hmain : w.main with
    | setting q before =>
      rw [stored_setting hmain]
      by_cases hqp : q = p
      · simp [hqp]
      · simp [hqp, hfield]
    | _ => simp [stored, hmain, hfield]
  · obtain ⟨y, q, hy, -, hyq, hflag, -⟩ := h.starting p s hstarts
    obtain rfl := Option.some.inj (hx.symm.trans hy)
    obtain rfl := Option.some.inj (hxr.symm.trans hyq)
    simp [hflag, Behind, hstarts]

/-- A connection arrives for the session. -/
def dialled : List Action := [.other (.accept none), .other (.connect 0 sessionAlpn)]

/-- A peer hosts, refuses, and somebody connects. -/
def hostAndRefuse : List Action :=
  [.host 0, .other (.keys 0 [sessionAlpn]), .other (.setAlpns 0), .spawn true, .store, .setRefuse 0 true,
    .storeRefuse] ++ dialled

theorem refuses_iff_stored : ∃ w, Machine.run step {} hostAndRefuse = some w ∧ w.Refuses 0 := by
  have hrun : ((Machine.run step {} hostAndRefuse).map fun w =>
      (w.dispatcher.arrivals[0]?, w.dispatcher.protocols.lookup sessionAlpn, w.sessions.map (·.registration),
        w.peers 0, w.main)) =
      some (some (.connected sessionAlpn), some 0, [some 0], ⟨some 0, true⟩, .idle) := by
    decide +kernel
  obtain ⟨w, hs, he⟩ := Option.map_eq_some_iff.1 hrun
  simp only [Prod.mk.injEq] at he
  obtain ⟨hi, hr, hsessions, hpeer, hmain⟩ := he
  obtain ⟨x, hx, hxr⟩ := List.map_eq_singleton_iff.1 hsessions
  refine ⟨w, hs, (refuses_iff hs hi hr (p := 0) (s := 0) (x := x) (by simp [hx]) hxr (.inl (by rw [hpeer]))
    (by rw [hpeer])).2 ?_⟩
  simp [Behind, hmain, Main.starts]

/-- A peer refuses and hosts, and somebody connects before `host` is done. -/
def refuseAndHost : List Action :=
  [.setRefuse 0 true, .host 0, .other (.keys 0 [sessionAlpn]), .other (.setAlpns 0)] ++ dialled

/-- **Refusing from the start, and admitting somebody.** The flag is stored
after the ALPN is out. -/
theorem admits_while_refusing : ¬ ∀ as w i p s r x, Machine.run step {} as = some w →
    w.dispatcher.arrivals[i]? = some (.connected sessionAlpn) →
    w.dispatcher.protocols.lookup sessionAlpn = some r → w.sessions[s]? = some x → x.registration = some r →
    w.HostedBy p s → (w.peers p).refuseNewConnections = true → w.Refuses i := by
  intro hall
  have hrun : ((Machine.run step {} refuseAndHost).map fun w =>
      (w.dispatcher.arrivals[0]?, w.dispatcher.protocols.lookup sessionAlpn, w.sessions.map (·.registration),
        w.peers 0, w.main)) =
      some (some (.connected sessionAlpn), some 0, [some 0], ⟨none, true⟩, .registering 0 0) := by
    decide +kernel
  obtain ⟨w, hs, he⟩ := Option.map_eq_some_iff.1 hrun
  simp only [Prod.mk.injEq] at he
  obtain ⟨hi, hr, hsessions, hpeer, hmain⟩ := he
  obtain ⟨x, hx, hxr⟩ := List.map_eq_singleton_iff.1 hsessions
  have hstarts : w.main.starts 0 0 := by
    rw [hmain]
    exact ⟨rfl, rfl⟩
  have hrefuses : w.Refuses 0 := hall _ w 0 0 0 0 x hs hi hr (by simp [hx]) hxr (.inr hstarts) (by rw [hpeer])
  obtain ⟨y, r, hy, -, hyr, hflag, -⟩ := (flagged_run hs).2.starting 0 0 hstarts
  obtain rfl : x = y := by simpa [hx] using hy
  obtain rfl := Option.some.inj (hxr.symm.trans hyr)
  rw [refuses_iff_flag hs hi hr, hflag] at hrefuses
  exact Bool.false_ne_true hrefuses

end Stage
end Gdiroh
