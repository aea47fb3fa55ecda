/-
What an endpoint is bound with (`endpoint.rs`). Its settings can be changed at
any time, and `bind` takes a copy of them, so a live endpoint keeps what it was
bound with. The address book is shared instead: a peer remembered at any time
is in it.

`bound_as_set`: the live endpoint has, of each setting, what the last call
before its `bind` that went through chose. Turning DNS lookup off clears every
lookup the builder has by then, the address book among them, so what is
remembered from tickets reaches an endpoint only if it was bound with DNS
lookup on.

The builder is `iroh`'s; `Documented` has what its methods say they do.
-/
import Gdiroh.Endpoint.Stores
import Gdiroh.Lib.Bytes
import Gdiroh.Lib.Logs
import Gdiroh.Lib.Machine
import Gdiroh.Lib.Polled
import Mathlib.Tactic.IntervalCases

namespace Gdiroh.Endpoint

open Polled

/-- 32 raw bytes. -/
def SecretKey : Type := { bytes : Bytes // bytes.length = 32 }

/-- `<[u8; 32]>::try_from`. -/
def SecretKey.fromBytes (bytes : Bytes) : Option SecretKey :=
  if h : bytes.length = 32 then some ⟨bytes, h⟩ else none

inductive RelayMode (μ : Type) where
  | default
  | staging
  | disabled
  | custom (map : μ)

/-- `DEFAULT_LOCAL_SERVICE`. -/
def defaultLocalService : String := "gdiroh"

/-- Applied at the next bind, not to a live endpoint. -/
structure Settings (μ : Type) where
  /-- `none` means a throwaway is generated. -/
  secretKey : Option SecretKey := none
  relayMode : RelayMode μ := .default
  dnsLookup : Bool := true
  localDiscovery : Bool := false
  localService : String := defaultLocalService

namespace Settings

variable {μ : Type}

/-- The relay modes that have a constant. -/
def relayModeOf (mode : Int32) : Option (RelayMode μ) :=
  if mode = 0 then some .default else if mode = 1 then some .staging else if mode = 2 then some .disabled else none

/-- A name to advertise under; empty restores the default. -/
def serviceOf (name : String) : String := if name.toList.all isWhitespace then defaultLocalService else name

def setRelayMode (s : Settings μ) (mode : Int32) : Bool × Settings μ :=
  match relayModeOf mode with
  | some mode => (true, { s with relayMode := mode })
  | none => (false, s)

/-- `relays` is `RelayMap::try_from_iter`. -/
def setCustomRelays (relays : List String → Option μ) (s : Settings μ) (urls : List String) : Bool × Settings μ :=
  match relays urls with
  | some map => (true, { s with relayMode := .custom map })
  | none => (false, s)

def setDnsLookup (s : Settings μ) (enabled : Bool) : Settings μ := { s with dnsLookup := enabled }

def setLocalDiscovery (s : Settings μ) (enabled : Bool) : Settings μ := { s with localDiscovery := enabled }

def setLocalDiscoveryService (s : Settings μ) (name : String) : Settings μ := { s with localService := serviceOf name }

def setSecretKey (s : Settings μ) (key : Bytes) : Bool × Settings μ :=
  match SecretKey.fromBytes key with
  | some key => (true, { s with secretKey := some key })
  | none => (false, s)

end Settings

/-! ## The builder -/

/-- The methods of `iroh`'s endpoint builder that a bind calls, and the lookups
it is given. -/
structure BuilderApi (B μ L : Type) where
  /-- `Endpoint::builder(presets::N0)`. -/
  n0 : B
  secretKey : B → SecretKey → B
  addressLookup : B → L → B
  relayMode : B → RelayMode μ → B
  clearAddressLookup : B → B
  /-- The endpoint's address book. -/
  memory : L
  mdns : String → L

section
variable {B μ L : Type}

/-- What each method does to the parts of a builder. -/
structure Documented (api : BuilderApi B μ L) (keyOf : B → Option SecretKey) (relayOf : B → RelayMode μ)
    (lookupsOf : B → List L) : Prop where
  key_secretKey : ∀ b key, keyOf (api.secretKey b key) = some key
  key_addressLookup : ∀ b l, keyOf (api.addressLookup b l) = keyOf b
  key_relayMode : ∀ b m, keyOf (api.relayMode b m) = keyOf b
  key_clear : ∀ b, keyOf (api.clearAddressLookup b) = keyOf b
  relay_relayMode : ∀ b m, relayOf (api.relayMode b m) = m
  relay_addressLookup : ∀ b l, relayOf (api.addressLookup b l) = relayOf b
  relay_clear : ∀ b, relayOf (api.clearAddressLookup b) = relayOf b
  lookups_secretKey : ∀ b key, lookupsOf (api.secretKey b key) = lookupsOf b
  lookups_addressLookup : ∀ b l, lookupsOf (api.addressLookup b l) = lookupsOf b ++ [l]
  lookups_relayMode : ∀ b m, lookupsOf (api.relayMode b m) = lookupsOf b
  lookups_clear : ∀ b, lookupsOf (api.clearAddressLookup b) = []
  memory_ne_mdns : ∀ name, api.memory ≠ api.mdns name

/-- The builder that the task of a bind makes. `fresh` is a generated key. -/
def Settings.build (api : BuilderApi B μ L) (s : Settings μ) (fresh : SecretKey) : B :=
  let b := api.relayMode (api.addressLookup (api.secretKey api.n0 (s.secretKey.getD fresh)) api.memory) s.relayMode
  let b := if s.dnsLookup then b else api.clearAddressLookup b
  if s.localDiscovery then api.addressLookup b (api.mdns s.localService) else b

/-- What the texts given to an endpoint stand for. -/
structure Texts (μ : Type) where
  relays : List String → Option μ
  /-- The address in an endpoint's ticket, and in a blob's. -/
  ticket : String → Option String
  blobTicket : String → Option String

/-- An endpoint, with its settings and the builder it is or will be bound with. -/
structure Configured (B μ : Type) where
  settings : Settings μ := {}
  /-- Addresses learned out of band. -/
  lookup : List String := []
  pendingBind : Option (B × Producer (Except String String)) := none
  live : Option B := none

namespace Configured

inductive Act where
  | setRelayMode (mode : Int32)
  | setCustomRelays (urls : List String)
  | setDnsLookup (enabled : Bool)
  | setLocalDiscovery (enabled : Bool)
  | setLocalDiscoveryService (name : String)
  | setSecretKey (key : Bytes)
  | rememberPeer (ticket : String)
  /-- Remembers the provider, whatever becomes of the fetch. -/
  | fetchBlobTicket (ticket : String)
  /-- `fresh` is the key generated where none is set. -/
  | bind (fresh : SecretKey) (running : Bool)
  | bindTask (m : Move (Except String String))
  | drain
  | close

variable (api : BuilderApi B μ L) (texts : Texts μ)

def bind (w : Configured B μ) (fresh : SecretKey) (running : Bool) : Configured B μ :=
  if w.pendingBind.isSome ∨ w.live.isSome then w
  else if running then { w with pendingBind := some (w.settings.build api fresh, .spawned) }
  else w

/-- Settles a bind that has finished, if one has. -/
def drainBind (w : Configured B μ) : Configured B μ :=
  match w.pendingBind with
  | none => w
  | some (b, p) =>
    match p.queue with
    | .ok _ :: _ => { w with pendingBind := none, live := some b }
    | .error _ :: _ => { w with pendingBind := none }
    | [] => if p.there then w else { w with pendingBind := none }

def remember (w : Configured B μ) : Option String → Configured B μ
  | some address => { w with lookup := w.lookup ++ [address] }
  | none => w

def step (w : Configured B μ) : Act → Option (Configured B μ)
  | .setRelayMode mode => some { w with settings := (w.settings.setRelayMode mode).2 }
  | .setCustomRelays urls => some { w with settings := (w.settings.setCustomRelays texts.relays urls).2 }
  | .setDnsLookup enabled => some { w with settings := w.settings.setDnsLookup enabled }
  | .setLocalDiscovery enabled => some { w with settings := w.settings.setLocalDiscovery enabled }
  | .setLocalDiscoveryService name => some { w with settings := w.settings.setLocalDiscoveryService name }
  | .setSecretKey key => some { w with settings := (w.settings.setSecretKey key).2 }
  | .rememberPeer ticket => some (w.remember (texts.ticket ticket))
  | .fetchBlobTicket ticket => some (w.remember (texts.blobTicket ticket))
  | .bind fresh running => some (w.bind api fresh running)
  | .bindTask m =>
    w.pendingBind.bind fun x => (x.2.move (fun _ => true) m).map fun p => { w with pendingBind := some (x.1, p) }
  | .drain => some w.drainBind
  | .close => some { w with pendingBind := none, live := none }

/-! ## What the calls so far chose -/

def keyChoice : Act → Option SecretKey
  | .setSecretKey key => SecretKey.fromBytes key
  | _ => none

def relayChoice : Act → Option (RelayMode μ)
  | .setRelayMode mode => Settings.relayModeOf mode
  | .setCustomRelays urls => (texts.relays urls).map .custom
  | _ => none

def dnsChoice : Act → Option Bool
  | .setDnsLookup enabled => some enabled
  | _ => none

def localChoice : Act → Option Bool
  | .setLocalDiscovery enabled => some enabled
  | _ => none

def serviceChoice : Act → Option String
  | .setLocalDiscoveryService name => some (Settings.serviceOf name)
  | _ => none

/-- The address a call adds to the address book. -/
def remembered : Act → Option String
  | .rememberPeer ticket => texts.ticket ticket
  | .fetchBlobTicket ticket => texts.blobTicket ticket
  | _ => none

/-- The settings are the last choices that went through. -/
structure Chosen (as : List Act) (s : Settings μ) : Prop where
  key : s.secretKey = Logs.latest (fun a => (keyChoice a).map some) none as
  relay : s.relayMode = Logs.latest (relayChoice texts) .default as
  dns : s.dnsLookup = Logs.latest dnsChoice true as
  localOn : s.localDiscovery = Logs.latest localChoice false as
  service : s.localService = Logs.latest serviceChoice defaultLocalService as

variable {api : BuilderApi B μ L} {texts : Texts μ}

theorem chosen_nil : Chosen texts [] ({} : Settings μ) := ⟨rfl, rfl, rfl, rfl, rfl⟩

/-- One more call chooses, or leaves what was chosen. -/
theorem chosen_concat {as : List Act} {a : Act} {s t : Settings μ} (h : Chosen texts as s)
    (hk : t.secretKey = ((keyChoice a).map some).getD s.secretKey)
    (hr : t.relayMode = (relayChoice texts a).getD s.relayMode)
    (hd : t.dnsLookup = (dnsChoice a).getD s.dnsLookup) (hl : t.localDiscovery = (localChoice a).getD s.localDiscovery)
    (hs : t.localService = (serviceChoice a).getD s.localService) : Chosen texts (as ++ [a]) t where
  key := by rw [Logs.latest_concat, ← h.key, hk]
  relay := by rw [Logs.latest_concat, ← h.relay, hr]
  dns := by rw [Logs.latest_concat, ← h.dns, hd]
  localOn := by rw [Logs.latest_concat, ← h.localOn, hl]
  service := by rw [Logs.latest_concat, ← h.service, hs]

theorem bind_settings (w : Configured B μ) (fresh : SecretKey) (running : Bool) :
    (w.bind api fresh running).settings = w.settings := by
  unfold bind
  split
  · rfl
  split
  · rfl
  · rfl

theorem drainBind_settings (w : Configured B μ) : w.drainBind.settings = w.settings := by
  unfold drainBind
  split
  · rfl
  · split
    · rfl
    · rfl
    · split
      · rfl
      · rfl

theorem remember_settings (w : Configured B μ) (address : Option String) :
    (w.remember address).settings = w.settings := by
  cases address with
  | none => rfl
  | some address => rfl

theorem chosen_step {as : List Act} {w w' : Configured B μ} {a : Act} (h : Chosen texts as w.settings)
    (hs : w.step api texts a = some w') : Chosen texts (as ++ [a]) w'.settings := by
  have hother : w'.settings = w.settings → keyChoice a = none → relayChoice texts a = none → dnsChoice a = none →
      localChoice a = none → serviceChoice a = none → Chosen texts (as ++ [a]) w'.settings := by
    intro he hk hr hd hl hn
    rw [he]
    exact chosen_concat h (by rw [hk]; rfl) (by rw [hr]; rfl) (by rw [hd]; rfl) (by rw [hl]; rfl) (by rw [hn]; rfl)
  cases a with
  | setRelayMode mode =>
    obtain rfl := Option.some.inj hs
    refine chosen_concat h ?_ ?_ ?_ ?_ ?_
    all_goals
      dsimp only [Settings.setRelayMode, keyChoice, relayChoice, dnsChoice, localChoice, serviceChoice]
      cases Settings.relayModeOf (μ := μ) mode <;> rfl
  | setCustomRelays urls =>
    obtain rfl := Option.some.inj hs
    refine chosen_concat h ?_ ?_ ?_ ?_ ?_
    all_goals
      dsimp only [Settings.setCustomRelays, keyChoice, relayChoice, dnsChoice, localChoice, serviceChoice]
      cases texts.relays urls <;> rfl
  | setDnsLookup enabled | setLocalDiscovery enabled | setLocalDiscoveryService name =>
    obtain rfl := Option.some.inj hs
    exact chosen_concat h rfl rfl rfl rfl rfl
  | setSecretKey key =>
    obtain rfl := Option.some.inj hs
    refine chosen_concat h ?_ ?_ ?_ ?_ ?_
    all_goals
      dsimp only [Settings.setSecretKey, keyChoice, relayChoice, dnsChoice, localChoice, serviceChoice]
      cases SecretKey.fromBytes key <;> rfl
  | rememberPeer ticket | fetchBlobTicket ticket =>
    obtain rfl := Option.some.inj hs
    exact hother (remember_settings w _) rfl rfl rfl rfl rfl
  | bind fresh running =>
    obtain rfl := Option.some.inj hs
    exact hother (bind_settings w fresh running) rfl rfl rfl rfl rfl
  | bindTask m =>
    obtain ⟨x, -, hx⟩ := Option.bind_eq_some_iff.1 hs
    obtain ⟨p, -, rfl⟩ := Option.map_eq_some_iff.1 hx
    exact hother rfl rfl rfl rfl rfl rfl
  | drain =>
    obtain rfl := Option.some.inj hs
    exact hother (drainBind_settings w) rfl rfl rfl rfl rfl
  | close =>
    obtain rfl := Option.some.inj hs
    exact hother rfl rfl rfl rfl rfl rfl

/-! ## What a bind makes of them -/

/-- The builder has what the calls up to its bind chose. -/
structure Made (api : BuilderApi B μ L) (texts : Texts μ) (keyOf : B → Option SecretKey) (relayOf : B → RelayMode μ)
    (lookupsOf : B → List L) (before : List Act) (fresh : SecretKey) (b : B) : Prop where
  key : keyOf b = some (Logs.latest keyChoice fresh before)
  relay : relayOf b = Logs.latest (relayChoice texts) .default before
  lookups : lookupsOf b =
    (if Logs.latest dnsChoice true before then lookupsOf api.n0 ++ [api.memory] else []) ++
      if Logs.latest localChoice false before then [api.mdns (Logs.latest serviceChoice defaultLocalService before)]
      else []

theorem latest_map_some {as : List Act} (fresh : SecretKey) :
    (Logs.latest (fun a => (keyChoice a).map some) none as).getD fresh = Logs.latest keyChoice fresh as := by
  induction as using List.reverseRecOn with
  | nil => rfl
  | append_singleton as a ih =>
    rw [Logs.latest_concat, Logs.latest_concat]
    cases keyChoice a with
    | none => exact ih
    | some key => rfl

theorem made_build {keyOf : B → Option SecretKey} {relayOf : B → RelayMode μ} {lookupsOf : B → List L}
    (hdoc : Documented api keyOf relayOf lookupsOf) {before : List Act} {s : Settings μ} (h : Chosen texts before s)
    (fresh : SecretKey) : Made api texts keyOf relayOf lookupsOf before fresh (s.build api fresh) where
  key := by
    rw [← latest_map_some, ← h.key]
    unfold Settings.build
    dsimp only
    split <;> split <;>
      simp only [hdoc.key_addressLookup, hdoc.key_clear, hdoc.key_relayMode, hdoc.key_secretKey]
  relay := by
    rw [← h.relay]
    unfold Settings.build
    dsimp only
    split <;> split <;> simp only [hdoc.relay_addressLookup, hdoc.relay_clear, hdoc.relay_relayMode]
  lookups := by
    rw [← h.dns, ← h.localOn, ← h.service]
    unfold Settings.build
    dsimp only
    split <;> split <;> simp only [hdoc.lookups_addressLookup, hdoc.lookups_clear, hdoc.lookups_relayMode,
      hdoc.lookups_secretKey, List.append_nil, List.nil_append]

theorem memory_mem {keyOf : B → Option SecretKey} {relayOf : B → RelayMode μ} {lookupsOf : B → List L}
    (hdoc : Documented api keyOf relayOf lookupsOf) {before : List Act} {fresh : SecretKey} {b : B}
    (h : Made api texts keyOf relayOf lookupsOf before fresh b) :
    api.memory ∈ lookupsOf b ↔ Logs.latest dnsChoice true before = true := by
  have hmdns : api.memory ∉ (if Logs.latest localChoice false before then
      [api.mdns (Logs.latest serviceChoice defaultLocalService before)] else []) := by
    split
    · simpa using hdoc.memory_ne_mdns _
    · simp
  rw [h.lookups, List.mem_append, or_iff_left hmdns]
  split
  · next hon => simp [hon]
  · next hoff => simp [hoff]

/-! ## Every run -/

section
variable (api texts) (keyOf : B → Option SecretKey) (relayOf : B → RelayMode μ) (lookupsOf : B → List L)

/-- A bind that found the endpoint neither bound nor binding made the builder,
and the endpoint was not closed since. -/
def BoundBy (as : List Act) (b : B) : Prop :=
  ∃ before fresh after w₀, as = before ++ .bind fresh true :: after ∧ .close ∉ after ∧
    Machine.run (step api texts) {} before = some w₀ ∧ w₀.pendingBind = none ∧ w₀.live = none ∧
    Made api texts keyOf relayOf lookupsOf before fresh b

structure Traced (as : List Act) (w : Configured B μ) : Prop where
  chosen : Chosen texts as w.settings
  lookup : w.lookup = as.filterMap (remembered texts)
  pending : ∀ x, w.pendingBind = some x → BoundBy api texts keyOf relayOf lookupsOf as x.1
  live : ∀ b, w.live = some b → BoundBy api texts keyOf relayOf lookupsOf as b

end

variable {keyOf : B → Option SecretKey} {relayOf : B → RelayMode μ} {lookupsOf : B → List L}

theorem BoundBy.later {as : List Act} {b : B} (h : BoundBy api texts keyOf relayOf lookupsOf as b) {a : Act}
    (ha : a ≠ .close) : BoundBy api texts keyOf relayOf lookupsOf (as ++ [a]) b := by
  obtain ⟨before, fresh, after, w₀, rfl, hc, hrest⟩ := h
  refine ⟨before, fresh, after ++ [a], w₀, by simp, fun hm => ?_, hrest⟩
  rcases List.mem_append.1 hm with hm | hm
  · exact hc hm
  · exact ha (List.mem_singleton.1 hm).symm

/-- What a call does to the address book. -/
theorem step_lookup {w w' : Configured B μ} {a : Act} (hs : w.step api texts a = some w') :
    w'.lookup = w.lookup ++ (remembered texts a).toList := by
  have hremember : ∀ address, (w.remember address).lookup = w.lookup ++ address.toList := by
    intro address
    cases address with
    | none => exact (List.append_nil _).symm
    | some address => rfl
  cases a with
  | rememberPeer ticket | fetchBlobTicket ticket =>
    obtain rfl := Option.some.inj hs
    exact hremember _
  | bind fresh running =>
    obtain rfl := Option.some.inj hs
    simp only [remembered, Option.toList_none, List.append_nil, bind]
    split
    · rfl
    split
    · rfl
    · rfl
  | drain =>
    obtain rfl := Option.some.inj hs
    simp only [remembered, Option.toList_none, List.append_nil, drainBind]
    split
    · rfl
    · split
      · rfl
      · rfl
      · split
        · rfl
        · rfl
  | bindTask m =>
    obtain ⟨x, -, hx⟩ := Option.bind_eq_some_iff.1 hs
    obtain ⟨p, -, rfl⟩ := Option.map_eq_some_iff.1 hx
    exact (List.append_nil _).symm
  | _ =>
    obtain rfl := Option.some.inj hs
    exact (List.append_nil _).symm

/-- The bind and the live endpoint after a call. Only a bind makes a builder. -/
theorem step_builders {w w' : Configured B μ} {a : Act} (hs : w.step api texts a = some w') :
    (∃ fresh, a = .bind fresh true ∧ w.pendingBind = none ∧ w.live = none ∧
      w'.pendingBind = some (w.settings.build api fresh, .spawned) ∧ w'.live = none) ∨
    (∀ x, w'.pendingBind = some x → a ≠ .close ∧ ∃ y, w.pendingBind = some y ∧ x.1 = y.1) ∧
      ∀ b, w'.live = some b → a ≠ .close ∧ (w.live = some b ∨ ∃ y, w.pendingBind = some y ∧ y.1 = b) := by
  have hsame : w'.pendingBind = w.pendingBind → w'.live = w.live → a ≠ .close →
      (∀ x, w'.pendingBind = some x → a ≠ .close ∧ ∃ y, w.pendingBind = some y ∧ x.1 = y.1) ∧
        ∀ b, w'.live = some b → a ≠ .close ∧ (w.live = some b ∨ ∃ y, w.pendingBind = some y ∧ y.1 = b) := by
    intro hp hl ha
    exact ⟨fun x hx => ⟨ha, x, hp ▸ hx, rfl⟩, fun b hb => ⟨ha, .inl (hl ▸ hb)⟩⟩
  cases a with
  | bind fresh running =>
    simp only [step, bind, Option.some.injEq] at hs
    split at hs
    · subst hs
      exact .inr (hsame rfl rfl (by simp))
    · next hfree =>
      simp only [not_or, Option.not_isSome_iff_eq_none] at hfree
      split at hs
      · next hrun =>
        subst hs
        exact .inl ⟨fresh, by rw [hrun], hfree.1, hfree.2, rfl, hfree.2⟩
      · subst hs
        exact .inr (hsame rfl rfl (by simp))
  | bindTask m =>
    obtain ⟨x, hx, hs⟩ := Option.bind_eq_some_iff.1 hs
    obtain ⟨p, -, rfl⟩ := Option.map_eq_some_iff.1 hs
    refine .inr ⟨fun y hy => ⟨by simp, x, hx, ?_⟩, fun b hb => ⟨by simp, .inl hb⟩⟩
    rw [← Option.some.inj hy]
  | drain =>
    simp only [step, drainBind, Option.some.injEq] at hs
    split at hs
    · subst hs
      exact .inr (hsame rfl rfl (by simp))
    · next b p hp =>
      split at hs
      · subst hs
        refine .inr ⟨by simp, fun c hc => ⟨by simp, .inr ⟨(b, p), hp, ?_⟩⟩⟩
        simpa using hc
      · subst hs
        exact .inr ⟨by simp, fun c hc => ⟨by simp, .inl hc⟩⟩
      · split at hs
        · subst hs
          exact .inr (hsame rfl rfl (by simp))
        · subst hs
          exact .inr ⟨by simp, fun c hc => ⟨by simp, .inl hc⟩⟩
  | close =>
    obtain rfl := Option.some.inj hs
    exact .inr ⟨by simp, by simp⟩
  | rememberPeer ticket | fetchBlobTicket ticket =>
    obtain rfl := Option.some.inj hs
    have hremember : ∀ address, (w.remember address).pendingBind = w.pendingBind ∧
        (w.remember address).live = w.live := by
      intro address
      cases address with
      | none => exact ⟨rfl, rfl⟩
      | some address => exact ⟨rfl, rfl⟩
    exact .inr (hsame (hremember _).1 (hremember _).2 (by simp))
  | _ =>
    obtain rfl := Option.some.inj hs
    exact .inr (hsame rfl rfl (by simp))

theorem traced_run (hdoc : Documented api keyOf relayOf lookupsOf) {as : List Act} {w : Configured B μ}
    (h : Machine.run (step api texts) {} as = some w) : Traced api texts keyOf relayOf lookupsOf as w := by
  refine Machine.run_trace (I := Traced api texts keyOf relayOf lookupsOf)
    ⟨chosen_nil, rfl, by simp, by simp⟩ (fun as w a w' hrun hI hs => ?_) h
  have hlookup : w'.lookup = (as ++ [a]).filterMap (remembered texts) := by
    rw [step_lookup hs, hI.lookup, List.filterMap_append]
    cases hr : remembered texts a <;> simp [hr]
  refine ⟨chosen_step hI.chosen hs, hlookup, fun x hx => ?_, fun b hb => ?_⟩
  · rcases step_builders hs with ⟨fresh, rfl, hp, hl, hp', -⟩ | ⟨hpending, -⟩
    · obtain rfl := Option.some.inj (hp'.symm.trans hx)
      exact ⟨as, fresh, [], w, rfl, by simp, hrun, hp, hl, made_build hdoc hI.chosen fresh⟩
    · obtain ⟨hne, y, hy, he⟩ := hpending x hx
      exact he ▸ (hI.pending y hy).later hne
  · rcases step_builders hs with ⟨fresh, rfl, -, -, -, hl'⟩ | ⟨-, hlive⟩
    · simp [hl'] at hb
    · obtain ⟨hne, hb | ⟨y, hy, rfl⟩⟩ := hlive b hb
      · exact (hI.live b hb).later hne
      · exact (hI.pending y hy).later hne

/-- **As it was set.** In every run, a live endpoint was made by a `bind` that
found it neither bound nor binding, since when it was not closed. It has the
key and the relays last chosen before that bind, and the lookups called for by
the settings last chosen before it, whatever was set afterwards. A peer's
address, remembered at any time, is in its reach if and only if DNS lookup was
on at that bind. -/
theorem bound_as_set (hdoc : Documented api keyOf relayOf lookupsOf) {as : List Act} {w : Configured B μ}
    (h : Machine.run (step api texts) {} as = some w) {b : B} (hb : w.live = some b) :
    ∃ before fresh after w₀, as = before ++ .bind fresh true :: after ∧ .close ∉ after ∧
      Machine.run (step api texts) {} before = some w₀ ∧ w₀.pendingBind = none ∧ w₀.live = none ∧
      keyOf b = some (Logs.latest keyChoice fresh before) ∧
      relayOf b = Logs.latest (relayChoice texts) .default before ∧
      lookupsOf b =
        (if Logs.latest dnsChoice true before then lookupsOf api.n0 ++ [api.memory] else []) ++
          (if Logs.latest localChoice false before then
            [api.mdns (Logs.latest serviceChoice defaultLocalService before)] else []) ∧
      ∀ address, (address ∈ w.lookup ∧ api.memory ∈ lookupsOf b ↔
        (∃ a ∈ as, remembered texts a = some address) ∧ Logs.latest dnsChoice true before = true) := by
  have htraced := traced_run hdoc h
  obtain ⟨before, fresh, after, w₀, has, hc, hrun, hp, hl, hmade⟩ := htraced.live b hb
  refine ⟨before, fresh, after, w₀, has, hc, hrun, hp, hl, hmade.key, hmade.relay, hmade.lookups, fun address => ?_⟩
  rw [htraced.lookup, List.mem_filterMap, memory_mem hdoc hmade]

end Configured
end

/-! ## A builder that keeps what it is given -/

inductive PlainLookup where
  | pkarr
  | memory
  | mdns (service : String)

structure PlainBuilder where
  key : Option SecretKey := none
  relay : RelayMode Unit := .default
  lookups : List PlainLookup := [.pkarr]

def plainApi : BuilderApi PlainBuilder Unit PlainLookup where
  n0 := {}
  secretKey := fun b key => { b with key := some key }
  addressLookup := fun b l => { b with lookups := b.lookups ++ [l] }
  relayMode := fun b m => { b with relay := m }
  clearAddressLookup := fun b => { b with lookups := [] }
  memory := .memory
  mdns := .mdns

theorem plain_documented : Documented plainApi PlainBuilder.key PlainBuilder.relay PlainBuilder.lookups := by
  constructor <;> intros <;> first | rfl | exact PlainLookup.noConfusion

namespace Configured

/-- A closed network: no DNS, and the host's ticket. -/
def closedNetwork : List Act :=
  [.setDnsLookup false, .setRelayMode 2, .rememberPeer "ticket",
    .bind ⟨List.replicate 32 0, rfl⟩ true, .setDnsLookup true, .bindTask (.send (.ok "id")), .drain]

/-- The ticket's address is never found. -/
theorem bound_as_set_closedNetwork :
    ∃ w b, Machine.run (step plainApi ⟨fun _ => none, some, some⟩) {} closedNetwork = some w ∧ w.live = some b ∧
      w.lookup = ["ticket"] ∧ PlainLookup.memory ∉ b.lookups := by
  have hrun : ((Machine.run (step plainApi ⟨fun _ => none, some, some⟩) {} closedNetwork).map fun w =>
      (w.lookup, w.live.isSome, w.settings.dnsLookup)) = some (["ticket"], true, true) := by
    decide +kernel
  obtain ⟨w, hw, he⟩ := Option.map_eq_some_iff.1 hrun
  simp only [Prod.mk.injEq] at he
  obtain ⟨b, hb⟩ := Option.isSome_iff_exists.1 he.2.1
  obtain ⟨before, fresh, after, w₀, has, -, -, -, -, -, -, hlookups, hreach⟩ := bound_as_set plain_documented hw hb
  refine ⟨w, b, hw, hb, he.1, fun hm => ?_⟩
  have hon := ((hreach "ticket").1 ⟨by simp [he.1], hm⟩).2
  -- There is one bind, after three calls.
  have hget : closedNetwork[before.length]? = some (.bind fresh true) := by simp [has]
  have hbefore : before = closedNetwork.take before.length := by simp [has]
  have hlen : before.length = 3 := by
    obtain ⟨hlt, -⟩ := List.getElem?_eq_some_iff.1 hget
    have hlt : before.length < 7 := hlt
    generalize before.length = n at hget hlt
    interval_cases n <;> simp [closedNetwork] at hget ⊢
  rw [hbefore, hlen] at hon
  exact absurd hon (by decide)

end Configured
end Gdiroh.Endpoint
