/-
What reading a document answers, beside what listing it answers.

`Read` takes the first author's entry, `ListKeys` the latest one. With one
author to a key they agree; with several they agree exactly when the two
entries have the same content (`reads_latest_iff`), and a read does not see
that a later author has deleted the key.

Deleting is each author's own, too: what other authors wrote under a prefix
stays (`delete_clears_iff`).
-/
import Gdiroh.Docs.Document

namespace Gdiroh.Docs
namespace Replica

variable {A H : Type} [LinearOrder A] {s : Replica A H} {key start : Bytes}

/-! ## Lists in strict order -/

section
variable {α β : Type} [LinearOrder β] {f : α → β} {l : List α}

theorem le_of_idxOf_le [DecidableEq α] (h : l.Pairwise fun a b => f a < f b) {a b : α} (ha : a ∈ l) (hb : b ∈ l)
    (hab : l.idxOf a ≤ l.idxOf b) : f a ≤ f b := by
  have hla := List.idxOf_lt_length_of_mem ha
  have hlb := List.idxOf_lt_length_of_mem hb
  rcases hab.lt_or_eq with hlt | heq
  · have := List.pairwise_iff_getElem.1 h _ _ hla hlb hlt
    simp only [List.getElem_idxOf] at this
    exact this.le
  · rw [(List.idxOf_inj ha).1 heq]

/-- The first is the least. -/
theorem head?_eq_some_iff_least (h : l.Pairwise fun a b => f a < f b) {a : α} :
    l.head? = some a ↔ a ∈ l ∧ ∀ b ∈ l, f a ≤ f b := by
  cases l with
  | nil => simp
  | cons c l =>
    rw [List.pairwise_cons] at h
    simp only [List.head?_cons, Option.some.injEq]
    constructor
    · rintro rfl
      refine ⟨by simp, fun b hb => ?_⟩
      rcases List.mem_cons.1 hb with rfl | hb
      · exact le_rfl
      · exact (h.1 b hb).le
    · rintro ⟨ha, hle⟩
      rcases List.mem_cons.1 ha with rfl | ha
      · rfl
      · exact absurd (h.1 a ha) (not_lt.2 (hle c (by simp)))

end

/-! ## The entries of a key -/

/-- The entry with the greatest timestamp, the first author's of several. -/
def Latest (s : Replica A H) (key : Bytes) (e : Entry A H) : Prop :=
  e ∈ s.entries ∧ e.key = key ∧ ∀ f ∈ s.entries, f.key = key →
    f.timestamp < e.timestamp ∨ f.timestamp = e.timestamp ∧ e.author ≤ f.author

/-- The first author's entry of those that are not empty. -/
def First (empty : H) (s : Replica A H) (key : Bytes) (e : Entry A H) : Prop :=
  e ∈ s.entries ∧ e.key = key ∧ e.hash ≠ empty ∧
    ∀ f ∈ s.entries, f.key = key → f.hash ≠ empty → e.author ≤ f.author

theorem mem_entriesAt {e : Entry A H} : e ∈ s.entriesAt key ↔ e ∈ s.entries ∧ e.key = key := by
  simp [entriesAt]

theorem entriesAt_sorted (s : Replica A H) (key : Bytes) :
    (s.entriesAt key).Pairwise fun e f => e.author < f.author := by
  refine List.Pairwise.imp_of_mem ?_ (s.sorted.filter (·.key = key))
  intro e f he hf h
  exact h ((mem_entriesAt.1 he).2.trans (mem_entriesAt.1 hf).2.symm)

/-- Within a key, an author has one entry. -/
theorem entry_unique {e f : Entry A H} (he : e ∈ s.entriesAt key) (hf : f ∈ s.entriesAt key)
    (h : e.author = f.author) : e = f := by
  have hne := (s.entriesAt_sorted key).imp fun h => h.ne
  rw [← List.pairwise_map (f := Entry.author)] at hne
  exact List.inj_on_of_nodup_map hne he hf h

theorem latest_iff {e : Entry A H} : s.latest key = some e ↔ s.Latest key e := by
  classical
  rw [latest, List.argmax_eq_some_iff, mem_entriesAt]
  constructor
  · rintro ⟨⟨hm, hk⟩, hmax, hidx⟩
    refine ⟨hm, hk, fun f hf hfk => ?_⟩
    have hfa := mem_entriesAt.2 ⟨hf, hfk⟩
    rcases (hmax f hfa).lt_or_eq with hlt | heq
    · exact .inl hlt
    · exact .inr ⟨heq, le_of_idxOf_le (s.entriesAt_sorted key) (mem_entriesAt.2 ⟨hm, hk⟩) hfa (hidx f hfa heq.ge)⟩
  · rintro ⟨hm, hk, hmax⟩
    have hea := mem_entriesAt.2 ⟨hm, hk⟩
    refine ⟨⟨hm, hk⟩, fun f hf => ?_, fun f hf hle => ?_⟩
    · obtain ⟨hf, hfk⟩ := mem_entriesAt.1 hf
      rcases hmax f hf hfk with hlt | ⟨heq, -⟩
      · exact hlt.le
      · exact heq.le
    · obtain ⟨hf', hfk⟩ := mem_entriesAt.1 hf
      rcases hmax f hf' hfk with hlt | ⟨-, hauthor⟩
      · exact absurd hle (not_le.2 hlt)
      · by_contra hidx
        have hauthor' := le_of_idxOf_le (s.entriesAt_sorted key) hf hea (not_le.1 hidx).le
        rw [entry_unique hea hf (le_antisymm hauthor hauthor')] at hidx
        exact hidx le_rfl

/-- A key with an entry has a latest one. -/
theorem exists_latest {e : Entry A H} (he : e ∈ s.entries) (hk : e.key = key) : ∃ f, s.Latest key f := by
  cases hl : s.latest key with
  | none =>
    rw [latest, List.argmax_eq_none] at hl
    exact absurd (mem_entriesAt.2 ⟨he, hk⟩) (by simp [hl])
  | some f => exact ⟨f, latest_iff.1 hl⟩

/-- What is left after deleting, later than everything: the others' entries,
and the author's own elsewhere. -/
theorem mem_del {empty : H} {author : A} {now : Nat} (hlater : ∀ e ∈ s.entries, e.timestamp < now) {e : Entry A H} :
    e ∈ (s.del empty author start now).entries ↔
      e = ⟨author, start, now, empty, 0⟩ ∨ e ∈ s.entries ∧ (e.author = author → ¬ start <+: e.key) := by
  have hkept : ∀ f, f ∈ s.kept author start now ↔ f ∈ s.entries ∧ (f.author = author → ¬ start <+: f.key) := by
    intro f
    simp only [kept, List.mem_filter, decide_eq_true_eq, not_and]
    refine and_congr_right fun hf => forall_congr' fun _ => ?_
    exact ⟨fun h hs => h hs (hlater f hf), fun h hs => absurd hs h⟩
  have hnew : ∀ f ∈ s.kept author start now, f.key = start → f.author ≠ author := by
    rintro f hf rfl ha
    exact ((hkept f).1 hf).2 ha (List.prefix_refl _)
  simp only [del, dif_pos hnew, mem_place, hkept]

/-! ## The two queries -/

variable [DecidableEq H] {empty : H}

theorem head?_keyExact_iff {e : Entry A H} : (s.keyExact empty key).head? = some e ↔ First empty s key e := by
  rw [keyExact, head?_eq_some_iff_least ((s.entriesAt_sorted key).filter _)]
  simp only [List.mem_filter, mem_entriesAt, decide_eq_true_eq, First, and_assoc, and_imp]

/-- A key with an entry that is not empty has a first one. -/
theorem exists_first {e : Entry A H} (he : e ∈ s.entries) (hk : e.key = key) (hne : e.hash ≠ empty) :
    ∃ f, First empty s key f := by
  cases hh : (s.keyExact empty key).head? with
  | none =>
    have hm : e ∈ s.keyExact empty key := by simp [keyExact, mem_entriesAt, he, hk, hne]
    rw [List.head?_eq_none_iff] at hh
    exact absurd hm (by simp [hh])
  | some f => exact ⟨f, head?_keyExact_iff.1 hh⟩

theorem read_of_first {contents : H → Option Bytes} {e : Entry A H} (h : First empty s key e) :
    s.read empty contents key = contents e.hash := by
  rw [read, head?_keyExact_iff.2 h]

theorem read_eq_some {contents : H → Option Bytes} {b : Bytes} (h : s.read empty contents key = some b) :
    ∃ e, First empty s key e ∧ contents e.hash = some b := by
  unfold read at h
  split at h
  · next e he => exact ⟨e, head?_keyExact_iff.1 he, h⟩
  · simp at h

/-- A key is listed, under its own prefixes, when its latest entry is not
empty. -/
theorem listed_iff {hash : H} (hstart : start <+: key) :
    (∃ info ∈ s.listKeys empty start, info.key = key ∧ info.hash = hash) ↔
      ∃ e, s.Latest key e ∧ e.hash = hash ∧ hash ≠ empty := by
  constructor
  · rintro ⟨info, hm, rfl, rfl⟩
    obtain ⟨e, he, rfl⟩ := List.mem_map.1 hm
    obtain ⟨k, -, hk⟩ := List.mem_filterMap.1 he
    obtain ⟨hlatest, hne⟩ := Option.filter_eq_some_iff.1 hk
    have hl := latest_iff.1 hlatest
    obtain rfl := hl.2.1
    exact ⟨e, hl, rfl, by simpa using hne⟩
  · rintro ⟨e, hl, rfl, hne⟩
    refine ⟨⟨e.key, e.author, e.hash, e.len⟩, List.mem_map.2 ⟨e, List.mem_filterMap.2 ⟨key, ?_, ?_⟩, rfl⟩, hl.2.1, rfl⟩
    · simp only [List.mem_filter, List.mem_dedup, List.mem_map, decide_eq_true_eq]
      exact ⟨⟨e, hl.1, hl.2.1⟩, hstart⟩
    · exact Option.filter_eq_some_iff.2 ⟨latest_iff.2 hl, by simpa using hne⟩

/-! ## Reading -/

/-- `Read` answers with the content of the entry that `ListKeys` lists. -/
def ReadsLatest (empty : H) (contents : H → Option Bytes) (s : Replica A H) (key : Bytes) : Prop :=
  (∀ hash b, contents hash = some b → (s.read empty contents key = some b ↔
    ∃ info ∈ s.listKeys empty [], info.key = key ∧ info.hash = hash)) ∧
  ((∀ info ∈ s.listKeys empty [], info.key ≠ key) → s.read empty contents key = none)

/-- **Reads and listings.** With all contents at hand, a read answers with the
latest entry exactly when that has the content of the first author's entry, of
those that are not empty, or all are empty. -/
theorem reads_latest_iff (contents : H → Option Bytes) (s : Replica A H) (key : Bytes)
    (hpresent : ∀ e ∈ s.entries, e.hash ≠ empty → ∃ b, contents e.hash = some b)
    (haddressed : ∀ h h' b, contents h = some b → contents h' = some b → h = h') :
    ReadsLatest empty contents s key ↔
      ∀ first latest, First empty s key first → s.Latest key latest → latest.hash = first.hash := by
  have hlisted := @listed_iff A H _ s key [] _ empty
  constructor
  · intro h first latest hfirst hlatest
    obtain ⟨b, hb⟩ := hpresent first hfirst.1 hfirst.2.2.1
    have hread := (read_of_first hfirst).trans hb
    obtain ⟨e, he, hhash, -⟩ := (hlisted List.nil_prefix).1 ((h.1 _ b hb).1 hread)
    have heq : e = latest := Option.some.inj ((latest_iff.2 he).symm.trans (latest_iff.2 hlatest))
    exact heq ▸ hhash
  · intro h
    have hnone : ∀ first, First empty s key first → ∃ latest, s.Latest key latest ∧ latest.hash = first.hash := by
      intro first hfirst
      obtain ⟨latest, hlatest⟩ := exists_latest hfirst.1 hfirst.2.1
      exact ⟨latest, hlatest, h first latest hfirst hlatest⟩
    refine ⟨fun hash b hb => ⟨fun hread => ?_, fun hl => ?_⟩, fun hno => ?_⟩
    · obtain ⟨first, hfirst, hcontent⟩ := read_eq_some hread
      obtain ⟨latest, hlatest, heq⟩ := hnone first hfirst
      have hhash := haddressed _ _ b hcontent hb
      exact (hlisted List.nil_prefix).2 ⟨latest, hlatest, heq.trans hhash, hhash ▸ hfirst.2.2.1⟩
    · obtain ⟨latest, hlatest, rfl, hne⟩ := (hlisted List.nil_prefix).1 hl
      obtain ⟨first, hfirst⟩ := exists_first hlatest.1 hlatest.2.1 hne
      rw [read_of_first hfirst, ← h first latest hfirst hlatest, hb]
    · by_contra hread
      obtain ⟨b, hb⟩ := Option.ne_none_iff_exists'.1 hread
      obtain ⟨first, hfirst, -⟩ := read_eq_some hb
      obtain ⟨latest, hlatest, heq⟩ := hnone first hfirst
      obtain ⟨info, hm, hk, -⟩ := (hlisted List.nil_prefix).2 ⟨latest, hlatest, heq, hfirst.2.2.1⟩
      exact hno info hm hk

/-- A key that one author has written. -/
theorem reads_latest_iff_oneAuthor :
    let s : Replica Nat UInt8 := ⟨[⟨1, [107], 9, 5, 1⟩], by decide⟩
    ReadsLatest 0 (fun h => some [h]) s [107] := by
  intro s
  refine (reads_latest_iff (fun h => some [h]) s [107] (fun e _ _ => ⟨_, rfl⟩) fun h h' b hb hb' => ?_).2 ?_
  · simp only [Option.some.injEq] at hb hb'
    simpa using hb.trans hb'.symm
  · rintro first latest ⟨hfirst, -⟩ ⟨hlatest, -⟩
    rw [List.mem_singleton.1 hfirst, List.mem_singleton.1 hlatest]

/-- Two authors write a key; a read answers with what the first of them wrote
before the second. -/
theorem first_author_wins :
    let s : Replica Nat UInt8 := ⟨[⟨1, [107], 1, 5, 1⟩, ⟨2, [107], 2, 6, 1⟩], by decide⟩
    s.read 0 (fun h => some [h]) [107] = some [5] ∧ s.listKeys 0 [] = [⟨[107], 2, 6, 1⟩] ∧
      ¬ ReadsLatest 0 (fun h => some [h]) s [107] := by
  intro s
  have hread : s.read 0 (fun h => some [h]) [107] = some [5] := by decide +kernel
  have hlist : s.listKeys 0 [] = [⟨[107], 2, 6, 1⟩] := by decide +kernel
  refine ⟨hread, hlist, fun h => ?_⟩
  have := (h.1 6 [6] rfl).2 (by simp [hlist])
  simp [hread] at this

/-! ## Deleting -/

/-- Nothing under the prefix is listed or read. -/
def Cleared (empty : H) (contents : H → Option Bytes) (s : Replica A H) (start : Bytes) : Prop :=
  s.listKeys empty start = [] ∧ ∀ key, start <+: key → s.read empty contents key = none

/-- **Deleting a prefix.** It removes every key under it when the other
authors have only deletions there, and not otherwise, as far as contents are
at hand. -/
theorem delete_clears_iff (contents : H → Option Bytes) (author : A) (start : Bytes) (now : Nat) (s : Replica A H)
    (hlater : ∀ e ∈ s.entries, e.timestamp < now) :
    ((∀ e ∈ s.entries, e.author ≠ author → start <+: e.key → e.hash = empty) →
      Cleared empty contents (apply empty contents author now s (.delete start)).1 start) ∧
    ((∀ e ∈ s.entries, e.hash ≠ empty → ∃ b, contents e.hash = some b) →
      Cleared empty contents (apply empty contents author now s (.delete start)).1 start →
        ∀ e ∈ s.entries, e.author ≠ author → start <+: e.key → e.hash = empty) := by
  have hmem : ∀ e, e ∈ (apply empty contents author now s (.delete start)).1.entries ↔
      e = ⟨author, start, now, empty, 0⟩ ∨ e ∈ s.entries ∧ (e.author = author → ¬ start <+: e.key) :=
    fun e => mem_del hlater
  generalize (apply empty contents author now s (.delete start)).1 = t at hmem
  constructor
  · intro hothers
    have hempty : ∀ e ∈ t.entries, start <+: e.key → e.hash = empty := by
      intro e he hs
      rcases (hmem e).1 he with rfl | ⟨he, hown⟩
      · rfl
      · exact hothers e he (fun ha => hown ha hs) hs
    constructor
    · rw [List.eq_nil_iff_forall_not_mem]
      intro info hm
      obtain ⟨e, he, rfl⟩ := List.mem_map.1 hm
      obtain ⟨key, hkey, hk⟩ := List.mem_filterMap.1 he
      obtain ⟨hlatest, hne⟩ := Option.filter_eq_some_iff.1 hk
      obtain ⟨hem, rfl, -⟩ := latest_iff.1 hlatest
      simp only [List.mem_filter, decide_eq_true_eq] at hkey
      simp [hempty e hem hkey.2] at hne
    · intro key hs
      by_contra hread
      obtain ⟨b, hb⟩ := Option.ne_none_iff_exists'.1 hread
      obtain ⟨first, ⟨hf, rfl, hne, -⟩, -⟩ := read_eq_some hb
      exact hne (hempty first hf hs)
  · intro hpresent hcleared e he ha hs
    by_contra hne
    obtain ⟨first, hfirst⟩ := exists_first ((hmem e).2 (.inr ⟨he, fun h => absurd h ha⟩)) rfl hne
    have hread := hcleared.2 e.key hs
    rw [read_of_first hfirst] at hread
    rcases (hmem first).1 hfirst.1 with rfl | ⟨hf, -⟩
    · exact hfirst.2.2.1 rfl
    · obtain ⟨b, hb⟩ := hpresent first hf hfirst.2.2.1
      simp [hb] at hread

/-- An author clears its document, of which another has deleted its part. -/
theorem delete_clears_iff_ownKeys :
    Cleared 0 (fun h => some [h]) (apply 0 (fun h => some [h]) 1 9
      (⟨[⟨1, [107], 1, 5, 1⟩, ⟨2, [107], 2, 0, 0⟩, ⟨1, [108], 3, 6, 1⟩], by decide⟩ : Replica Nat UInt8)
      (.delete [])).1 [] := by
  refine (delete_clears_iff _ 1 [] 9 _ ?_).1 ?_
  · decide
  · decide

/-- What another author wrote is still listed and read. -/
theorem others_keys_stay :
    let t := (apply 0 (fun h => some [h]) 1 9
      (⟨[⟨1, [107], 1, 5, 1⟩, ⟨2, [108], 2, 6, 1⟩], by decide⟩ : Replica Nat UInt8) (.delete [])).1
    t.listKeys 0 [] = [⟨[108], 2, 6, 1⟩] ∧ t.read 0 (fun h => some [h]) [108] = some [6] ∧
      ¬ Cleared 0 (fun h => some [h]) t [] := by
  intro t
  have hlist : t.listKeys 0 [] = [⟨[108], 2, 6, 1⟩] := by decide +kernel
  have hread : t.read 0 (fun h => some [h]) [108] = some [6] := by decide +kernel
  refine ⟨hlist, hread, fun h => ?_⟩
  exact absurd h.1 (by simp [hlist])

end Replica
end Gdiroh.Docs
