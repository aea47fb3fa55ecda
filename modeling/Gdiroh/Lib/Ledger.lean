/-
A ledger beside a list of questions. Whoever asks keeps only the questions
that still wait, in the order they were put, and lets go of a question when it
takes the answer. The ledger has every question that was ever put, and what
has become of it.

`Beside` says that the two agree: the entries that wait are the questions
kept, one by one, and what was made of answers so far is what the entries
taken call for, once each, in whatever order they were answered. It survives a
new question, anything that happens to a question that waits, and taking every
answer there is.
-/
import Mathlib.Data.List.Forall2
import Mathlib.Data.List.Perm.Basic

namespace Ledger

variable {κ : Type*} {ρ : κ → Type*} {τ β : Type*}

/-- What has become of a question. -/
inductive Fate (ρ : Type*) where
  | asked
  /-- Whoever was to answer it is gone. -/
  | lost
  | answered (outcome : ρ)
  | taken (outcome : ρ)

namespace Fate
variable {ρ : Type*}

def isTaken : Fate ρ → Bool
  | .taken _ => true
  | _ => false

def isLost : Fate ρ → Bool
  | .lost => true
  | _ => false

theorem isLost_iff {fate : Fate ρ} : fate.isLost = true ↔ fate = .lost := by
  cases fate <;> simp [isLost]

/-- The answer that waits to be taken. -/
def ready : Fate ρ → Option ρ
  | .answered outcome => some outcome
  | _ => none

def outcome : Fate ρ → Option ρ
  | .taken outcome => some outcome
  | _ => none

/-- Whoever was to answer it goes. -/
def go : Fate ρ → Fate ρ
  | .asked => .lost
  | fate => fate

/-- An answer that waits is taken. -/
def take : Fate ρ → Fate ρ
  | .answered outcome => .taken outcome
  | fate => fate

end Fate

structure Entry (ρ : κ → Type*) where
  what : κ
  fate : Fate (ρ what) := .asked

def waiting (l : List (Entry ρ)) : List (Entry ρ) := l.filter fun x => !x.fate.isTaken

/-- Where an entry's question is among those that wait. -/
def place (l : List (Entry ρ)) (j : Nat) : Nat := (waiting (l.take j)).length

/-- Every answer that waits is taken. -/
def settle (l : List (Entry ρ)) : List (Entry ρ) := l.map fun x => { x with fate := x.fate.take }

/-- What was made of the answers taken, in the order the questions were put. -/
def told (f : (k : κ) → ρ k → Option β) (l : List (Entry ρ)) : List β :=
  l.filterMap fun x => x.fate.outcome.bind (f x.what)

section
variable {x : Entry ρ} {l : List (Entry ρ)}

theorem waiting_cons_taken (h : x.fate.isTaken = true) : waiting (x :: l) = waiting l :=
  List.filter_cons_of_neg (by simp [h])

theorem waiting_cons (h : x.fate.isTaken = false) : waiting (x :: l) = x :: waiting l :=
  List.filter_cons_of_pos (by simp [h])

theorem waiting_append (l m : List (Entry ρ)) : waiting (l ++ m) = waiting l ++ waiting m := List.filter_append ..

theorem told_append {f : (k : κ) → ρ k → Option β} (l m : List (Entry ρ)) : told f (l ++ m) = told f l ++ told f m :=
  List.filterMap_append

/-- Of an entry that waits nothing was told. -/
theorem outcome_eq_none (h : x.fate.isTaken = false) : x.fate.outcome = none := by
  cases hf : x.fate with
  | asked | lost | answered => rfl
  | taken => simp [hf, Fate.isTaken] at h

end

/-- What a question is to its entry, what is made of an answer, the ledger, the
questions that wait and all that was made of answers so far. -/
structure Beside (R : Entry ρ → τ → Prop) (f : (k : κ) → ρ k → Option β) (l : List (Entry ρ)) (questions : List τ)
    (out : List β) : Prop where
  questions : List.Forall₂ R (waiting l) questions
  told : out.Perm (told f l)

namespace Beside

variable {R : Entry ρ → τ → Prop} {f : (k : κ) → ρ k → Option β} {l : List (Entry ρ)} {questions : List τ}
  {out : List β}

theorem nothing : Beside R f [] [] [] := ⟨.nil, .nil⟩

/-- A question is put. -/
theorem ask (h : Beside R f l questions out) {x : Entry ρ} {q : τ} (hx : x.fate.isTaken = false) (hR : R x q) :
    Beside R f (l ++ [x]) (questions ++ [q]) out where
  questions := by
    rw [waiting_append, waiting_cons hx]
    exact List.rel_append h.questions (.cons hR .nil)
  told := by
    have hnone : Ledger.told f [x] = [] := by simp [Ledger.told, outcome_eq_none hx]
    rw [told_append, hnone, List.append_nil]
    exact h.told

/-- Something is done to every question. -/
theorem all (h : Beside R f l questions out) {g : τ → τ} (hR : ∀ x q, R x q → R x (g q)) :
    Beside R f l (questions.map g) out where
  questions := by
    rw [List.forall₂_map_right_iff]
    exact h.questions.imp hR
  told := h.told

theorem forall₂_set (h : List.Forall₂ R (waiting l) questions) {j : Nat} {x : Entry ρ} (hj : l[j]? = some x)
    (hx : x.fate.isTaken = false) : ∃ q, questions[place l j]? = some q ∧ R x q ∧
      ∀ x' q', x'.fate.isTaken = false → R x' q' →
        List.Forall₂ R (waiting (l.set j x')) (questions.set (place l j) q') := by
  induction l generalizing j questions with
  | nil => simp at hj
  | cons y l ih =>
    cases hy : y.fate.isTaken with
    | true =>
      cases j with
      | zero =>
        obtain rfl := Option.some.inj hj
        exact absurd (hx.symm.trans hy) (by decide)
      | succ j =>
        rw [waiting_cons_taken hy] at h
        obtain ⟨q, hq, hR, hset⟩ := ih h hj
        have hplace : place (y :: l) (j + 1) = place l j := congrArg List.length (waiting_cons_taken hy)
        refine ⟨q, hplace ▸ hq, hR, fun x' q' hx' hR' => ?_⟩
        rw [hplace, List.set_cons_succ, waiting_cons_taken hy]
        exact hset x' q' hx' hR'
    | false =>
      rw [waiting_cons hy] at h
      cases h with
      | @cons _ q _ rest hRy hrest =>
        cases j with
        | zero =>
          obtain rfl := Option.some.inj hj
          refine ⟨q, rfl, hRy, fun x' q' hx' hR' => ?_⟩
          rw [List.set_cons_zero, waiting_cons hx']
          exact .cons hR' hrest
        | succ j =>
          obtain ⟨q', hq, hR, hset⟩ := ih hrest hj
          have hplace : place (y :: l) (j + 1) = place l j + 1 := congrArg List.length (waiting_cons hy)
          refine ⟨q', hplace ▸ hq, hR, fun x' q' hx' hR' => ?_⟩
          rw [hplace, List.set_cons_succ, List.set_cons_succ, waiting_cons hy]
          exact .cons hRy (hset x' q' hx' hR')

theorem told_set {j : Nat} {x x' : Entry ρ} (hj : l[j]? = some x) (hx : x.fate.isTaken = false)
    (hx' : x'.fate.isTaken = false) : Ledger.told f (l.set j x') = Ledger.told f l := by
  induction l generalizing j with
  | nil => rfl
  | cons y l ih =>
    cases j with
    | zero =>
      obtain rfl := Option.some.inj hj
      simp [Ledger.told, outcome_eq_none hx, outcome_eq_none hx']
    | succ j =>
      rw [List.set_cons_succ, ← List.singleton_append, told_append, ih hj, ← told_append, List.singleton_append]

/-- Something happens to one question that waits. -/
theorem change (h : Beside R f l questions out) {j : Nat} {x : Entry ρ} (hj : l[j]? = some x)
    (hx : x.fate.isTaken = false) : ∃ q, questions[place l j]? = some q ∧ R x q ∧
      ∀ x' q', x'.fate.isTaken = false → R x' q' → Beside R f (l.set j x') (questions.set (place l j) q') out := by
  obtain ⟨q, hq, hR, hset⟩ := forall₂_set h.questions hj hx
  refine ⟨q, hq, hR, fun x' q' hx' hR' => ⟨hset x' q' hx' hR', ?_⟩⟩
  rw [told_set hj hx hx']
  exact h.told

/-- Every answer there is is taken, and its question let go of. -/
theorem take (h : Beside R f l questions out) {keep : τ → Bool} {made : τ → Option β}
    (hkeep : ∀ x q, R x q → keep q = x.fate.ready.isNone)
    (hmade : ∀ x q, R x q → made q = x.fate.ready.bind (f x.what)) :
    Beside R f (settle l) (questions.filter keep) (out ++ questions.filterMap made) := by
  have hlist : ∀ (l : List (Entry ρ)) (questions : List τ), List.Forall₂ R (waiting l) questions →
      List.Forall₂ R (waiting (settle l)) (questions.filter keep) ∧
        (Ledger.told f l ++ questions.filterMap made).Perm (Ledger.told f (settle l)) := by
    intro l
    induction l with
    | nil =>
      intro questions hq
      cases hq
      exact ⟨.nil, .nil⟩
    | cons x l ih =>
      intro questions hq
      obtain ⟨k, fate⟩ := x
      cases fate with
      | taken o =>
        obtain ⟨hrest, htold⟩ := ih questions hq
        refine ⟨hrest, ?_⟩
        cases ho : f k o with
        | none => simpa [Ledger.told, settle, Fate.outcome, Fate.take, ho] using htold
        | some b => simpa [Ledger.told, settle, Fate.outcome, Fate.take, ho] using htold.cons b
      | asked | lost =>
        cases hq with
        | @cons _ q _ rest hR hrest =>
          obtain ⟨hrest, htold⟩ := ih rest hrest
          have hk : keep q = true := hkeep _ q hR
          have hm : made q = none := hmade _ q hR
          rw [List.filter_cons_of_pos hk, List.filterMap_cons_none hm]
          exact ⟨.cons hR hrest, htold⟩
      | answered o =>
        cases hq with
        | @cons _ q _ rest hR hrest =>
          obtain ⟨hrest, htold⟩ := ih rest hrest
          have hk : keep q = false := hkeep _ q hR
          have hm : made q = f k o := hmade _ q hR
          rw [List.filter_cons_of_neg (by simp [hk])]
          refine ⟨hrest, ?_⟩
          cases ho : f k o with
          | none => simpa [Ledger.told, settle, Fate.outcome, Fate.take, hm, ho] using htold
          | some b =>
            have hcons := (List.perm_middle (a := b)).trans (htold.cons b)
            simpa [Ledger.told, settle, Fate.outcome, Fate.take, hm, ho] using hcons
  obtain ⟨hwaiting, hperm⟩ := hlist l questions h.questions
  exact ⟨hwaiting, (h.told.append_right _).trans hperm⟩

end Beside
end Ledger
