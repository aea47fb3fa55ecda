/-
Where an endpoint keeps its blobs and documents (`endpoint.rs`). The blob
store and the document engine are started on first use, each at the path set
at that moment. When the path is changed after the first and before the
second, blobs and documents are kept at different places (`two_paths`).

`one_path_iff` says exactly when there is one path for an endpoint's
lifetime: when every store is started while the path is still the one of the
first blob or document operation.

Whether a start succeeds is up to the run: it does not when the protocol is
taken, or the runtime is down. `globalize` is Godot's `globalize_path`.
-/
import Gdiroh.Lib.Machine

namespace Gdiroh.Endpoint

/-- `char::is_whitespace`: Unicode's `White_Space`. -/
def isWhitespace (c : Char) : Bool :=
  let n := c.toNat
  (9 ≤ n && n ≤ 13) || n = 32 || n = 0x85 || n = 0xA0 || n = 0x1680 || (0x2000 ≤ n && n ≤ 0x200A) || n = 0x2028 ||
    n = 0x2029 || n = 0x202F || n = 0x205F || n = 0x3000

/-- The blob store on one endpoint; `none` keeps it in memory. -/
structure Depot where
  path : Option String
deriving DecidableEq

/-- The document engine, on the blob store's handle. -/
structure Library where
  store : Depot
  path : Option String
deriving DecidableEq

/-- Which starts succeed. -/
structure Starts where
  depot : Bool := true
  swarm : Bool := true
  library : Bool := true

structure IrohEndpoint where
  /-- There is a dispatcher. -/
  bound : Bool := false
  swarm : Bool := false
  depot : Option Depot := none
  library : Option Library := none
  /-- Where blobs are kept. Empty means in memory. -/
  blobPath : String := ""
deriving DecidableEq

namespace IrohEndpoint

/-- The path a store is started with. -/
def path (e : IrohEndpoint) : Option String := if e.blobPath = "" then none else some e.blobPath

/-- Keeps blobs at `path` instead of in memory. -/
def setBlobStorePath (globalize : String → String) (e : IrohEndpoint) (path : String) : IrohEndpoint :=
  { e with blobPath := if path.toList.all isWhitespace then "" else globalize path }

/-- The blob store, started on first use. -/
def startDepot (e : IrohEndpoint) (starts : Starts) : IrohEndpoint :=
  if e.depot.isNone ∧ e.bound ∧ starts.depot then { e with depot := some ⟨e.path⟩ } else e

/-- The gossip swarm, started on first use. -/
def startSwarm (e : IrohEndpoint) (starts : Starts) : IrohEndpoint :=
  if e.swarm = false ∧ e.bound ∧ starts.swarm then { e with swarm := true } else e

/-- The document engine, started on first use; the blob store and gossip come
up first. -/
def startLibrary (e : IrohEndpoint) (starts : Starts) : IrohEndpoint :=
  if e.library.isNone ∧ e.bound then
    let e := e.startDepot starts
    match e.depot with
    | none => e
    | some store =>
      let e := e.startSwarm starts
      if e.swarm ∧ starts.library then { e with library := some ⟨store, e.path⟩ } else e
  else e

/-- Everything closing has to do. -/
def teardown (e : IrohEndpoint) : IrohEndpoint :=
  { e with swarm := false, depot := none, library := none, bound := false }

end IrohEndpoint

/-- An endpoint, with the path that was set at the first blob or document
operation since it was last closed. -/
structure Lifetime where
  endpoint : IrohEndpoint := {}
  first : Option (Option String) := none

namespace Lifetime

inductive Call where
  /-- A bind succeeds. -/
  | bound
  | setBlobStorePath (path : String)
  /-- Any blob operation. -/
  | blob (starts : Starts)
  /-- Any document operation. -/
  | document (starts : Starts)
  | subscribe (starts : Starts)
  | close

/-- The first operation on a bound endpoint settles the path. -/
def settle (l : Lifetime) : Lifetime :=
  if l.endpoint.bound then { l with first := some (l.first.getD l.endpoint.path) } else l

def step (globalize : String → String) (l : Lifetime) : Call → Option Lifetime
  | .bound => some { l with endpoint := { l.endpoint with bound := true } }
  | .setBlobStorePath path => some { l with endpoint := l.endpoint.setBlobStorePath globalize path }
  | .blob starts => some { l.settle with endpoint := l.endpoint.startDepot starts }
  | .document starts => some { l.settle with endpoint := l.endpoint.startLibrary starts }
  | .subscribe starts => some { l with endpoint := l.endpoint.startSwarm starts }
  | .close => some { endpoint := l.endpoint.teardown, first := none }

/-- The blob store and the document engine are at the path that was set at
the first operation. -/
def OnePath (l : Lifetime) : Prop :=
  (∀ d ∈ l.endpoint.depot, l.first = some d.path) ∧ ∀ b ∈ l.endpoint.library, l.first = some b.path

/-- The path is still the one of the first operation, if there was one. -/
def Unchanged (l : Lifetime) : Prop := ∀ path ∈ l.first, path = l.endpoint.path

instance (l : Lifetime) : Decidable l.Unchanged := inferInstanceAs (Decidable (∀ path ∈ l.first, _))

/-- The call starts the blob store. -/
def StartsDepot (e : IrohEndpoint) (starts : Starts) : Prop :=
  e.depot = none ∧ e.bound = true ∧ starts.depot = true

/-- The call, a document operation, starts the document engine. -/
def StartsLibrary (e : IrohEndpoint) (starts : Starts) : Prop :=
  e.library = none ∧ e.bound = true ∧ (e.depot.isSome = true ∨ starts.depot = true) ∧
    (e.swarm = true ∨ starts.swarm = true) ∧ starts.library = true

instance (e : IrohEndpoint) (starts : Starts) : Decidable (StartsDepot e starts) :=
  inferInstanceAs (Decidable (_ ∧ _))

instance (e : IrohEndpoint) (starts : Starts) : Decidable (StartsLibrary e starts) :=
  inferInstanceAs (Decidable (_ ∧ _))

/-- A store that is started is started while the path is unchanged. -/
def Steady (l : Lifetime) : Call → Prop
  | .blob starts => StartsDepot l.endpoint starts → l.Unchanged
  | .document starts =>
    l.endpoint.library = none ∧ StartsDepot l.endpoint starts ∨ StartsLibrary l.endpoint starts → l.Unchanged
  | _ => True

instance (l : Lifetime) : ∀ a, Decidable (l.Steady a)
  | .blob _ => inferInstanceAs (Decidable (_ → _))
  | .document _ => inferInstanceAs (Decidable (_ → _))
  | .bound | .setBlobStorePath _ | .subscribe _ | .close => isTrue trivial

/-! ## What a call starts -/

section Start
variable (e : IrohEndpoint) (starts : Starts)

theorem startDepot_depot :
    (e.startDepot starts).depot = if StartsDepot e starts then some ⟨e.path⟩ else e.depot := by
  have hiff : (e.depot.isNone = true ∧ e.bound = true ∧ starts.depot = true) ↔ StartsDepot e starts := by
    rw [Option.isNone_iff_eq_none]
    exact Iff.rfl
  unfold IrohEndpoint.startDepot
  split
  · next h => rw [if_pos (hiff.1 h)]
  · next h => rw [if_neg (mt hiff.2 h)]

theorem startDepot_rest : (e.startDepot starts).library = e.library ∧ (e.startDepot starts).path = e.path ∧
    (e.startDepot starts).swarm = e.swarm ∧ (e.startDepot starts).bound = e.bound := by
  unfold IrohEndpoint.startDepot
  split
  · exact ⟨rfl, rfl, rfl, rfl⟩
  · exact ⟨rfl, rfl, rfl, rfl⟩

theorem startSwarm_rest : (e.startSwarm starts).depot = e.depot ∧ (e.startSwarm starts).library = e.library ∧
    (e.startSwarm starts).path = e.path := by
  unfold IrohEndpoint.startSwarm
  split
  · exact ⟨rfl, rfl, rfl⟩
  · exact ⟨rfl, rfl, rfl⟩

theorem startSwarm_swarm (hbound : e.bound = true) :
    (e.startSwarm starts).swarm = true ↔ e.swarm = true ∨ starts.swarm = true := by
  unfold IrohEndpoint.startSwarm
  split
  · next h => simp [h.2.2]
  · next h =>
    simp only [hbound, true_and, not_and] at h
    cases hs : e.swarm with
    | true => simp
    | false => simpa using h hs

theorem startLibrary_depot : (e.startLibrary starts).depot =
    if e.library = none ∧ StartsDepot e starts then some ⟨e.path⟩ else e.depot := by
  unfold IrohEndpoint.startLibrary
  simp only [Option.isNone_iff_eq_none]
  split
  · next h =>
    have hdepot := startDepot_depot e starts
    have hif : (if e.library = none ∧ StartsDepot e starts then some ⟨e.path⟩ else e.depot) =
        (e.startDepot starts).depot := by
      rw [hdepot]
      simp only [h.1, true_and]
    rw [hif]
    split
    · next hnone => rfl
    · next store hstore =>
      have hswarm := (startSwarm_rest (e.startDepot starts) starts).1
      split
      · exact hswarm
      · exact hswarm
  · next h =>
    rw [if_neg]
    rintro ⟨hnone, -, hbound, -⟩
    exact h ⟨hnone, hbound⟩

theorem startLibrary_library : (e.startLibrary starts).library = e.library ∧ ¬ StartsLibrary e starts ∨
    (∃ store, (e.startLibrary starts).library = some ⟨store, e.path⟩) ∧ StartsLibrary e starts := by
  unfold IrohEndpoint.startLibrary
  simp only [Option.isNone_iff_eq_none]
  split
  · next h =>
    obtain ⟨hlibrary, hpath, hswarm, hbound⟩ := startDepot_rest e starts
    have hdepot := startDepot_depot e starts
    split
    · next hnone =>
      refine .inl ⟨hlibrary, ?_⟩
      rintro ⟨-, -, hd, -⟩
      rw [hnone] at hdepot
      split at hdepot
      · simp at hdepot
      · next hno =>
        rcases hd with hd | hd
        · simp [← hdepot] at hd
        · exact hno ⟨hdepot.symm, h.2, hd⟩
    · next store hstore =>
      have hsome : e.depot.isSome = true ∨ starts.depot = true := by
        rw [hstore] at hdepot
        split at hdepot
        · next hs => exact .inr hs.2.2
        · exact .inl (by simp [← hdepot])
      obtain ⟨-, hlibrary', hpath'⟩ := startSwarm_rest (e.startDepot starts) starts
      have hswarm' := startSwarm_swarm (e.startDepot starts) starts (hbound.trans h.2)
      rw [hswarm] at hswarm'
      split
      · next hs =>
        refine .inr ⟨⟨store, ?_⟩, h.1, h.2, hsome, hswarm'.1 hs.1, hs.2⟩
        rw [hpath', hpath]
      · next hs =>
        refine .inl ⟨hlibrary'.trans hlibrary, ?_⟩
        rintro ⟨-, -, -, hw, hl⟩
        exact hs ⟨hswarm'.2 hw, hl⟩
  · next h => exact .inl ⟨rfl, fun hs => h ⟨hs.1, hs.2.1⟩⟩

end Start

/-! ## The path of the first operation -/

theorem settle_first {l : Lifetime} {path : Option String} (h : l.first = some path) : l.settle.first = some path := by
  unfold settle
  split
  · simp [h]
  · exact h

/-- What is started now is at the path of the first operation exactly when
the path is unchanged. -/
theorem settle_unchanged {l : Lifetime} (hbound : l.endpoint.bound = true) :
    l.settle.first = some l.endpoint.path ↔ l.Unchanged := by
  unfold settle Unchanged
  rw [if_pos hbound]
  cases hf : l.first with
  | none => simp
  | some path => simp

/-- **One call** keeps to the one path exactly when it starts nothing at
another. -/
theorem onePath_step {globalize : String → String} {l l' : Lifetime} {a : Call} (h : OnePath l)
    (hs : step globalize l a = some l') : OnePath l' ↔ Steady l a := by
  cases a with
  | bound => exact iff_of_true (Option.some.inj hs ▸ h) trivial
  | setBlobStorePath path => exact iff_of_true (Option.some.inj hs ▸ h) trivial
  | subscribe starts =>
    obtain ⟨hdepot, hlibrary, -⟩ := startSwarm_rest l.endpoint starts
    rw [← Option.some.inj hs]
    refine iff_of_true ?_ trivial
    rw [OnePath, hdepot, hlibrary]
    exact h
  | close =>
    rw [← Option.some.inj hs]
    refine iff_of_true ?_ trivial
    simp [OnePath, IrohEndpoint.teardown]
  | blob starts =>
    rw [← Option.some.inj hs]
    simp only [OnePath, Steady, startDepot_depot, (startDepot_rest l.endpoint starts).1]
    have hlibrary : ∀ b ∈ l.endpoint.library, l.settle.first = some b.path := fun b hb => settle_first (h.2 b hb)
    by_cases hstart : StartsDepot l.endpoint starts
    · rw [if_pos hstart, ← settle_unchanged hstart.2.1]
      constructor
      · exact fun hone _ => hone.1 _ rfl
      · intro hfirst
        refine ⟨fun d hd => ?_, hlibrary⟩
        rw [← Option.some.inj hd]
        exact hfirst hstart
    · rw [if_neg hstart]
      exact iff_of_true ⟨fun d hd => settle_first (h.1 d hd), hlibrary⟩ fun hs => absurd hs hstart
  | document starts =>
    rw [← Option.some.inj hs]
    simp only [OnePath, Steady, startLibrary_depot]
    have hdepot : ∀ d ∈ l.endpoint.depot, l.settle.first = some d.path := fun d hd => settle_first (h.1 d hd)
    have hlibrary := startLibrary_library l.endpoint starts
    constructor
    · rintro ⟨hd, hb⟩ hstart
      rcases hstart with hstart | hstart
      · rw [if_pos hstart] at hd
        exact (settle_unchanged hstart.2.2.1).1 (hd _ rfl)
      · rcases hlibrary with ⟨-, hno⟩ | ⟨⟨store, hsome⟩, -⟩
        · exact absurd hstart hno
        · exact (settle_unchanged hstart.2.1).1 (hb _ hsome)
    · intro hfirst
      refine ⟨fun d hd => ?_, fun b hb => ?_⟩
      · split at hd
        · next hstart =>
          rw [← Option.some.inj hd]
          exact (settle_unchanged hstart.2.2.1).2 (hfirst (.inl hstart))
        · exact hdepot d hd
      · rcases hlibrary with ⟨hsame, -⟩ | ⟨⟨store, hsome⟩, hstart⟩
        · rw [hsame] at hb
          exact settle_first (h.2 b hb)
        · rw [hsome] at hb
          rw [← Option.some.inj hb]
          exact (settle_unchanged hstart.2.1).2 (hfirst (.inr hstart))

/-- **One path exactly when every start finds it unchanged.** For every
sequence of calls: at every moment the blob store and the document engine
are at the path that was set at the first blob or document operation since
the endpoint was last closed, if and only if each was started while that
path was still set. -/
theorem one_path_iff {globalize : String → String} {as : List Call} {l : Lifetime}
    (h : Machine.run (step globalize) {} as = some l) :
    (∀ bs q, bs <+: as → Machine.run (step globalize) {} bs = some q → OnePath q) ↔
      Machine.Along (step globalize) Steady {} as :=
  Machine.invariant_iff_along (fun _ _ _ ho hs => onePath_step ho hs) h (by simp [OnePath])

/-- The path is set once, and again when both stores run. -/
def setOnce : List Call := [.bound, .setBlobStorePath "a", .blob {}, .document {}, .setBlobStorePath "b", .blob {}]

theorem one_path_iff_setOnce : ∃ l, Machine.run (step id) {} setOnce = some l ∧
    l.endpoint.library = some ⟨⟨some "a"⟩, some "a"⟩ ∧ OnePath l := by
  have hrun : ((Machine.run (step id) {} setOnce).map (·.endpoint.library)) = some (some ⟨⟨some "a"⟩, some "a"⟩) := by
    decide +kernel
  obtain ⟨l, hl, he⟩ := Option.map_eq_some_iff.1 hrun
  exact ⟨l, hl, he, (one_path_iff hl).2 (by decide +kernel) _ l (List.prefix_refl _) hl⟩

/-- **Two paths**: the path is set anew between the first blob operation and
the first document operation. -/
theorem two_paths : ∃ l, Machine.run (step id) {} [.bound, .setBlobStorePath "a", .blob {}, .setBlobStorePath "b",
    .document {}] = some l ∧ l.endpoint.depot = some ⟨some "a"⟩ ∧
      l.endpoint.library = some ⟨⟨some "a"⟩, some "b"⟩ ∧ ¬ OnePath l := by
  have hrun : ((Machine.run (step id) {} [.bound, .setBlobStorePath "a", .blob {}, .setBlobStorePath "b",
      .document {}]).map fun l => (l.endpoint.depot, l.endpoint.library)) =
      some (some ⟨some "a"⟩, some ⟨⟨some "a"⟩, some "b"⟩) := by
    decide +kernel
  obtain ⟨l, hl, he⟩ := Option.map_eq_some_iff.1 hrun
  simp only [Prod.mk.injEq] at he
  refine ⟨l, hl, he.1, he.2, fun hone => ?_⟩
  have ha := hone.1 _ he.1
  have hb := hone.2 _ he.2
  rw [ha] at hb
  simp at hb

end Lifetime
end Gdiroh.Endpoint
