/-
A document as its task works on it (`apply` in `docs.rs`).

Of the iroh-docs store, this is what `apply` uses: for each author and key at
most one entry; flat queries in author order, without the empty entries that
stand for deletions; the latest entry of a key, by timestamp and then by
author; and deleting, which writes an empty entry and removes the author's
older ones below it. Keys come in no particular order.

Authors and content hashes are any types; `empty` is the hash of no content.
`contents` is what the blob store holds.
-/
import Gdiroh.Lib.Bytes
import Mathlib.Data.List.MinMax
import Mathlib.Data.List.Dedup
import Mathlib.Order.Basic

namespace Gdiroh.Docs

structure Entry (A H : Type) where
  author : A
  key : Bytes
  timestamp : Nat
  hash : H
  len : Nat
deriving DecidableEq

/-- The entries of a document. Those of a key stand in the order of their
authors, each author's once. -/
structure Replica (A H : Type) [LinearOrder A] where
  entries : List (Entry A H) := []
  sorted : entries.Pairwise fun e f => e.key = f.key → e.author < f.author := by simp

/-- One key in a document, without its value. -/
structure KeyInfo (A H : Type) where
  key : Bytes
  author : A
  hash : H
  len : Nat
deriving DecidableEq

/-- The commands that read keys or delete them. -/
inductive Command where
  | delete (start : Bytes)
  | read (key : Bytes)
  | listKeys (start : Bytes)

/-- Replies. -/
inductive Event (A H : Type) where
  | keys (start : Bytes) (entries : List (KeyInfo A H))
  /-- `data` is `none` when the key is not set. -/
  | value (key : Bytes) (data : Option Bytes)
deriving DecidableEq

section
variable {A H : Type} [LinearOrder A]

/-- Puts an entry in its place among those of its key. -/
def place (e : Entry A H) : List (Entry A H) → List (Entry A H)
  | [] => [e]
  | f :: entries => if f.key = e.key ∧ e.author < f.author then e :: f :: entries else f :: place e entries

theorem mem_place {e f : Entry A H} {entries : List (Entry A H)} : f ∈ place e entries ↔ f = e ∨ f ∈ entries := by
  induction entries with
  | nil => simp [place]
  | cons g entries ih =>
    unfold place
    split
    · simp
    · simp only [List.mem_cons, ih]
      exact or_left_comm

theorem place_sorted {e : Entry A H} {entries : List (Entry A H)}
    (h : entries.Pairwise fun e f => e.key = f.key → e.author < f.author)
    (hnew : ∀ f ∈ entries, f.key = e.key → f.author ≠ e.author) :
    (place e entries).Pairwise fun e f => e.key = f.key → e.author < f.author := by
  induction entries with
  | nil => simp [place]
  | cons f entries ih =>
    rw [List.pairwise_cons] at h
    unfold place
    split
    · next hf =>
      refine List.pairwise_cons.2 ⟨fun g hg hk => ?_, List.pairwise_cons.2 h⟩
      rcases List.mem_cons.1 hg with rfl | hg
      · exact hf.2
      · exact hf.2.trans (h.1 g hg (hf.1.trans hk))
    · next hf =>
      refine List.pairwise_cons.2 ⟨fun g hg hk => ?_, ih h.2 fun g hg => hnew g (by simp [hg])⟩
      rcases mem_place.1 hg with rfl | hg
      · exact lt_of_le_of_ne (not_lt.1 fun hlt => hf ⟨hk, hlt⟩) (hnew f (by simp) hk)
      · exact h.1 g hg hk

namespace Replica

/-- The entries of a key, in author order. -/
def entriesAt (s : Replica A H) (key : Bytes) : List (Entry A H) := s.entries.filter (·.key = key)

/-- The latest entry of a key. -/
def latest (s : Replica A H) (key : Bytes) : Option (Entry A H) := (s.entriesAt key).argmax (·.timestamp)

/-- The entries an author would still have after deleting. -/
def kept (s : Replica A H) (author : A) (start : Bytes) (now : Nat) : List (Entry A H) :=
  s.entries.filter fun e => ¬ (e.author = author ∧ start <+: e.key ∧ e.timestamp < now)

variable [DecidableEq H] (empty : H)

/-- `Query::key_exact`. -/
def keyExact (s : Replica A H) (key : Bytes) : List (Entry A H) := (s.entriesAt key).filter (·.hash ≠ empty)

/-- `Query::single_latest_per_key().key_prefix(..)`. -/
def singleLatestPerKey (s : Replica A H) (start : Bytes) : List (Entry A H) :=
  ((s.entries.map (·.key)).dedup.filter (start <+: ·)).filterMap fun key => (s.latest key).filter (·.hash ≠ empty)

/-- `Doc::del`. -/
def del (s : Replica A H) (author : A) (start : Bytes) (now : Nat) : Replica A H :=
  if h : ∀ f ∈ s.kept author start now, f.key = start → f.author ≠ author then
    ⟨place ⟨author, start, now, empty, 0⟩ (s.kept author start now), place_sorted (s.sorted.filter _) h⟩
  else ⟨s.kept author start now, s.sorted.filter _⟩

/-- What `Read` answers. A value whose content has not arrived reads as
missing. -/
def read (contents : H → Option Bytes) (s : Replica A H) (key : Bytes) : Option Bytes :=
  match (s.keyExact empty key).head? with
  | some entry => contents entry.hash
  | none => none

/-- What `ListKeys` answers. -/
def listKeys (s : Replica A H) (start : Bytes) : List (KeyInfo A H) :=
  (s.singleLatestPerKey empty start).map fun entry => ⟨entry.key, entry.author, entry.hash, entry.len⟩

/-- The document task applies a command at the time `now`, writing as
`author`. -/
def apply (contents : H → Option Bytes) (author : A) (now : Nat) (s : Replica A H) :
    Command → Replica A H × List (Event A H)
  | .delete start => (s.del empty author start now, [])
  | .read key => (s, [.value key (s.read empty contents key)])
  | .listKeys start => (s, [.keys start (s.listKeys empty start)])

end Replica
end
end Gdiroh.Docs
