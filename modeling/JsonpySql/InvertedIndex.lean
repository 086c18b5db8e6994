/-
JsonpySql/InvertedIndex.lean

Inverted indexes: a sorted map from keys to the list of the items that have
the key.  What an index should say is a function `f` giving each item its key,
or `none` for an item that is not indexed.

Two invariants relate an index to `f`.

* `Complete idx f` — every item is listed under its key; an index may list
  more (stale entries);
* `Exact idx f`    — every key lists exactly its items, each once, and no key
  has an empty list.

Completeness needs no discipline: filing an item under its new key keeps it,
whatever was removed from under other keys (`Complete.add`, `Complete.remove`).
Exactness needs that an item is removed under the key it was filed under, and
is filed only when it is not filed already (`Exact.add`, `Exact.remove`).

Where an item may have several keys, what an index should say is a relation `R`,
and `Mirrors idx R` says that every key lists exactly the items related to it.
-/
import Mathlib.Data.List.Nodup
import Mathlib.Data.List.Induction
import Mathlib.Data.List.Basic
import Mathlib.Logic.Function.Basic
import Std.Data.ExtTreeMap

/-- A sorted map from keys to lists of items. -/
abbrev InvertedIndex (κ ι : Type*) [Ord κ] := Std.ExtTreeMap κ (List ι) compare

namespace InvertedIndex

variable {κ ι : Type*} [Ord κ] [Std.TransOrd κ] [DecidableEq ι]

/-- The items under a key; none when the key is absent. -/
def ids (idx : InvertedIndex κ ι) (k : κ) : List ι := (idx[k]?).getD []

/-- File an item under a key, at the end of the key's list. -/
def add (k : κ) (i : ι) (idx : InvertedIndex κ ι) : InvertedIndex κ ι :=
  match idx[k]? with
  | none => idx.insert k [i]
  | some l => if i ∈ l then idx else idx.insert k (l ++ [i])

/-- Remove an item from under a key, and the key with its last item. -/
def remove (k : κ) (i : ι) (idx : InvertedIndex κ ι) : InvertedIndex κ ι :=
  match idx[k]? with
  | none => idx
  | some l =>
      let l' := l.erase i
      if l'.isEmpty then idx.erase k else idx.insert k l'

/-- The items under the keys that satisfy `p`, in key order. -/
def select (idx : InvertedIndex κ ι) (p : κ → Bool) : List ι :=
  (idx.keys.filter p).flatMap idx.ids

variable [Std.LawfulEqOrd κ] [DecidableEq κ] {idx : InvertedIndex κ ι} {f : ι → Option κ}
  {k : κ} {i : ι}

omit [DecidableEq ι] [Std.LawfulEqOrd κ] [DecidableEq κ] in
@[simp] theorem ids_empty (k : κ) : ids (∅ : InvertedIndex κ ι) k = [] := by
  simp [ids]

omit [DecidableEq ι] in
theorem ids_insert (idx : InvertedIndex κ ι) (k : κ) (l : List ι) (k' : κ) :
    ids (idx.insert k l) k' = if k' = k then l else ids idx k' := by
  simp only [ids, Std.ExtTreeMap.getElem?_insert, Std.compare_eq_iff_eq, eq_comm (a := k)]
  split <;> rfl

omit [DecidableEq ι] in
theorem ids_erase (idx : InvertedIndex κ ι) (k k' : κ) :
    ids (idx.erase k) k' = if k' = k then [] else ids idx k' := by
  simp only [ids, Std.ExtTreeMap.getElem?_erase, Std.compare_eq_iff_eq, eq_comm (a := k)]
  split <;> rfl

theorem ids_add (idx : InvertedIndex κ ι) (k : κ) (i : ι) (k' : κ) :
    ids (idx.add k i) k' =
      if k' = k then (if i ∈ ids idx k then ids idx k else ids idx k ++ [i]) else ids idx k' := by
  rcases h : idx[k]? with _ | l
  · have hk : ids idx k = [] := by simp [ids, h]
    simp [add, h, hk, ids_insert]
  · have hk : ids idx k = l := by simp [ids, h]
    by_cases hi : i ∈ l
    · by_cases hkk : k' = k
      · simp [add, h, hk, hi, hkk]
      · simp [add, h, hi, hkk]
    · simp [add, h, hk, hi, ids_insert]

theorem ids_remove (idx : InvertedIndex κ ι) (k : κ) (i : ι) (k' : κ) :
    ids (idx.remove k i) k' = if k' = k then (ids idx k).erase i else ids idx k' := by
  rcases h : idx[k]? with _ | l
  · have hk : ids idx k = [] := by simp [ids, h]
    by_cases hkk : k' = k
    · simp [remove, h, hk, hkk]
    · simp [remove, h, hkk]
  · have hk : ids idx k = l := by simp [ids, h]
    by_cases hl : l.erase i = []
    · simp [remove, h, hk, hl, ids_erase]
    · simp [remove, h, hk, hl, ids_insert]

/-! ### Listing -/

theorem mem_ids_add {j : ι} {k' : κ} :
    j ∈ ids (idx.add k i) k' ↔ j ∈ ids idx k' ∨ k' = k ∧ j = i := by
  rw [ids_add]
  by_cases hk : k' = k
  · subst hk
    by_cases hi : i ∈ ids idx k'
    -- the item is listed already
    · simp only [if_true, hi, true_and]
      exact ⟨Or.inl, fun h => h.elim id fun hj => hj ▸ hi⟩
    · simp [hi]
  · simp [hk]

/-- No key lists an item twice. -/
def Tidy (idx : InvertedIndex κ ι) : Prop := ∀ k, (ids idx k).Nodup

omit [DecidableEq ι] [Std.LawfulEqOrd κ] [DecidableEq κ] in
theorem Tidy.empty : Tidy (∅ : InvertedIndex κ ι) := fun k => by simp

theorem Tidy.add (h : Tidy idx) (k : κ) (i : ι) : Tidy (idx.add k i) := by
  intro k'
  rw [ids_add]
  split
  · split
    · exact h k
    · next hi => exact (h k).append (List.nodup_singleton i) (by simpa using hi)
  · exact h k'

theorem Tidy.remove (h : Tidy idx) (k : κ) (i : ι) : Tidy (idx.remove k i) := by
  intro k'
  rw [ids_remove]
  split
  · exact (h k).erase i
  · exact h k'

/-- Where no item is listed twice, removing one removes it whole. -/
theorem Tidy.mem_ids_remove (h : Tidy idx) {j : ι} {k' : κ} :
    j ∈ ids (idx.remove k i) k' ↔ j ∈ ids idx k' ∧ ¬(k' = k ∧ j = i) := by
  rw [ids_remove]
  by_cases hk : k' = k
  · subst hk
    rw [if_pos rfl, (h k').mem_erase_iff]
    simp only [true_and, and_comm, ne_eq]
  · simp [hk]

/-- Remove an item from under one key, if there is one, and file it under
another, if there is one. -/
def refile (idx : InvertedIndex κ ι) (i : ι) (removed filed : Option κ) : InvertedIndex κ ι :=
  filed.elim (removed.elim idx (idx.remove · i)) ((removed.elim idx (idx.remove · i)).add · i)

theorem Tidy.refile (h : Tidy idx) (i : ι) (removed filed : Option κ) :
    Tidy (idx.refile i removed filed) := by
  have hremoved : Tidy (removed.elim idx (idx.remove · i)) := by
    cases removed with
    | none => exact h
    | some k => exact h.remove k i
  cases filed with
  | none => exact hremoved
  | some k => exact hremoved.add k i

/-- The keys an item is listed under after it was filed again: the new one, and
those it was under and was not removed from. -/
theorem Tidy.mem_ids_refile (h : Tidy idx) {removed filed : Option κ} {j : ι} :
    j ∈ ids (idx.refile i removed filed) k ↔
      if j = i then (j ∈ ids idx k ∧ removed ≠ some k) ∨ filed = some k else j ∈ ids idx k := by
  have hremoved : j ∈ ids (removed.elim idx (idx.remove · i)) k ↔
      j ∈ ids idx k ∧ (j = i → removed ≠ some k) := by
    cases removed with
    | none => simp
    | some k' =>
        rw [Option.elim_some, h.mem_ids_remove]
        refine and_congr_right fun _ => ⟨?_, ?_⟩
        · rintro hnot hj ⟨⟩
          exact hnot ⟨rfl, hj⟩
        · rintro hnot ⟨rfl, hj⟩
          exact hnot hj rfl
  cases filed with
  | none =>
      rw [InvertedIndex.refile, Option.elim_none, hremoved]
      by_cases hj : j = i <;> simp [hj]
  | some k' =>
      rw [InvertedIndex.refile, Option.elim_some, mem_ids_add, hremoved]
      by_cases hj : j = i <;> simp [hj, eq_comm]

/-! ### Empty lists -/

omit [Std.LawfulEqOrd κ] [DecidableEq κ] in
/-- Filing leaves no empty list. -/
theorem ne_nil_add (h : ∀ k : κ, idx[k]? ≠ some []) (k : κ) (i : ι) (k' : κ) :
    (idx.add k i)[k']? ≠ some [] := by
  rcases hk : idx[k]? with _ | l
  · simp only [InvertedIndex.add, hk, Std.ExtTreeMap.getElem?_insert]
    split
    · simp
    · exact h k'
  · by_cases hi : i ∈ l
    · simpa only [InvertedIndex.add, hk, hi, if_true] using h k'
    · simp only [InvertedIndex.add, hk, hi, if_false, Std.ExtTreeMap.getElem?_insert]
      split
      · simp
      · exact h k'

omit [Std.LawfulEqOrd κ] [DecidableEq κ] in
/-- Nor does removing. -/
theorem ne_nil_remove (h : ∀ k : κ, idx[k]? ≠ some []) (k : κ) (i : ι) (k' : κ) :
    (idx.remove k i)[k']? ≠ some [] := by
  rcases hk : idx[k]? with _ | l
  · simpa [InvertedIndex.remove, hk] using h k'
  · rcases hl : l.erase i with _ | ⟨a, l'⟩
    -- the item was the last one, and its key goes
    · simp only [InvertedIndex.remove, hk, hl, List.isEmpty_nil, if_true,
        Std.ExtTreeMap.getElem?_erase]
      split
      · simp
      · exact h k'
    · simp only [InvertedIndex.remove, hk, hl, List.isEmpty_cons, Bool.false_eq_true, if_false,
        Std.ExtTreeMap.getElem?_insert]
      split
      · simp
      · exact h k'

/-! ### Relations -/

/-- Every key lists just the items that are related to it, each once, and no list
is empty.  An item may be related to any number of keys. -/
structure Mirrors (idx : InvertedIndex κ ι) (R : κ → ι → Prop) : Prop where
  tidy : Tidy idx
  mem_ids : ∀ k i, i ∈ ids idx k ↔ R k i
  ne_nil : ∀ k : κ, idx[k]? ≠ some []

namespace Mirrors

variable {R R' : κ → ι → Prop}

omit [DecidableEq ι] [Std.LawfulEqOrd κ] [DecidableEq κ] in
theorem empty (hR : ∀ k i, ¬R k i) : Mirrors (∅ : InvertedIndex κ ι) R where
  tidy := Tidy.empty
  mem_ids k i := by simp [hR k i]
  ne_nil k := by simp

omit [DecidableEq ι] [Std.LawfulEqOrd κ] [DecidableEq κ] in
theorem congr (h : Mirrors idx R) (hR : ∀ k i, R k i ↔ R' k i) : Mirrors idx R' where
  tidy := h.tidy
  mem_ids k i := (h.mem_ids k i).trans (hR k i)
  ne_nil := h.ne_nil

/-- Filing relates the item to the key, whether it was or not. -/
theorem add (h : Mirrors idx R) (k : κ) (i : ι) :
    Mirrors (idx.add k i) fun k' j => R k' j ∨ k' = k ∧ j = i where
  tidy := h.tidy.add k i
  mem_ids k' j := by rw [mem_ids_add, h.mem_ids]
  ne_nil := ne_nil_add h.ne_nil k i

/-- Removing takes the item from the key, whether it was there or not. -/
theorem remove (h : Mirrors idx R) (k : κ) (i : ι) :
    Mirrors (idx.remove k i) fun k' j => R k' j ∧ ¬(k' = k ∧ j = i) where
  tidy := h.tidy.remove k i
  mem_ids k' j := by rw [h.tidy.mem_ids_remove, h.mem_ids]
  ne_nil := ne_nil_remove h.ne_nil k i

end Mirrors

/-- Filing distinct items one after another lists them under each key in their
order. -/
theorem ids_foldl_add {α : Type*} {item : α → ι} {key : α → κ} {l : List α}
    (hl : (l.map item).Nodup) (k : κ) :
    ids (l.foldl (fun idx a => idx.add (key a) (item a)) ∅) k =
      (l.filter fun a => key a = k).map item := by
  induction l using List.reverseRecOn with
  | nil => simp
  | append_singleton l a ih =>
      rw [List.map_append, List.nodup_append] at hl
      have hl' := ih hl.1
      rw [List.foldl_concat, ids_add, List.filter_append, List.map_append]
      by_cases hk : k = key a
      · subst hk
        -- the new item is none of those listed
        have hnot : item a ∉ (l.filter fun b => key b = key a).map item := fun hm => by
          obtain ⟨b, hb, heq⟩ := List.mem_map.mp hm
          exact hl.2.2 _ (List.mem_map_of_mem (List.mem_of_mem_filter hb)) _ (by simp) heq
        rw [if_pos rfl, hl', if_neg hnot]
        simp
      · rw [if_neg hk, hl']
        simp [Ne.symm hk]

/-! ### Completeness -/

/-- Every item is listed under its key. -/
def Complete (idx : InvertedIndex κ ι) (f : ι → Option κ) : Prop :=
  ∀ i k, f i = some k → i ∈ ids idx k

omit [DecidableEq ι] [Std.LawfulEqOrd κ] [DecidableEq κ] in
theorem Complete.empty (hf : ∀ i, f i = none) : Complete (∅ : InvertedIndex κ ι) f :=
  fun i _ h => absurd h (by simp [hf i])

/-- Filing an item under its new key keeps completeness. -/
theorem Complete.add (h : Complete idx f) (k : κ) (i : ι) :
    Complete (idx.add k i) (Function.update f i (some k)) := by
  intro j k' hj
  rw [ids_add]
  by_cases hji : j = i
  · subst hji
    obtain rfl : k = k' := by simpa using hj
    by_cases hm : j ∈ ids idx k <;> simp [hm]
  · have hold : j ∈ ids idx k' := h j k' (by simpa [hji] using hj)
    by_cases hkk : k' = k
    · subst hkk
      by_cases hm : i ∈ ids idx k' <;> simp [hm, hold]
    · simpa [hkk] using hold

/-- Removing an item, from under any key, keeps completeness for the others. -/
theorem Complete.remove (h : Complete idx f) (k : κ) (i : ι) :
    Complete (idx.remove k i) (Function.update f i none) := by
  intro j k' hj
  have hji : j ≠ i := by
    rintro rfl
    simp at hj
  have hold : j ∈ ids idx k' := h j k' (by simpa [hji] using hj)
  rw [ids_remove]
  by_cases hkk : k' = k
  · subst hkk
    simpa using (List.mem_erase_of_ne hji).mpr hold
  · simpa [hkk] using hold

omit [DecidableEq ι] [Std.LawfulEqOrd κ] [DecidableEq κ] in
/-- A complete index stays complete when fewer items are to be indexed. -/
theorem Complete.mono {g : ι → Option κ} (h : Complete idx f)
    (hg : ∀ i k, g i = some k → f i = some k) : Complete idx g :=
  fun i k hi => h i k (hg i k hi)

/-! ### Exactness -/

/-- Every key lists exactly its items, each once, and no list is empty. -/
structure Exact (idx : InvertedIndex κ ι) (f : ι → Option κ) : Prop where
  mem_ids : ∀ k i, i ∈ ids idx k ↔ f i = some k
  nodup : ∀ k, (ids idx k).Nodup
  ne_nil : ∀ k : κ, idx[k]? ≠ some []

omit [DecidableEq ι] [Std.LawfulEqOrd κ] [DecidableEq κ] in
theorem Exact.complete (h : Exact idx f) : Complete idx f := fun i k hi => (h.mem_ids k i).mpr hi

omit [DecidableEq ι] [Std.LawfulEqOrd κ] [DecidableEq κ] in
theorem Exact.empty (hf : ∀ i, f i = none) : Exact (∅ : InvertedIndex κ ι) f where
  mem_ids k i := by simp [hf i]
  nodup k := by simp
  ne_nil k := by simp

/-- Filing an item that is not filed yet keeps exactness. -/
theorem Exact.add (h : Exact idx f) (hi : f i = none) (k : κ) :
    Exact (idx.add k i) (Function.update f i (some k)) := by
  have hnot : ∀ k', i ∉ ids idx k' := fun k' hm => by simp [(h.mem_ids k' i).mp hm] at hi
  refine ⟨fun k' j => ?_, fun k' => ?_, fun k' => ?_⟩
  -- the items under every key
  · rw [ids_add, if_neg (hnot k)]
    by_cases hji : j = i
    · subst hji
      by_cases hkk : k' = k
      · simp [hkk]
      · simp [hkk, hnot k', Ne.symm hkk]
    · by_cases hkk : k' = k
      · subst hkk; simp [hji, h.mem_ids]
      · simp [hkk, hji, h.mem_ids]
  -- no item twice, since the new one was under no key
  · rw [ids_add, if_neg (hnot k)]
    split
    · exact (h.nodup k).append (List.nodup_singleton i) (by simpa using hnot k)
    · exact h.nodup k'
  · exact ne_nil_add h.ne_nil k i k'

/-- Removing an item from under its own key keeps exactness. -/
theorem Exact.remove (h : Exact idx f) (hi : f i = some k) :
    Exact (idx.remove k i) (Function.update f i none) := by
  refine ⟨fun k' j => ?_, fun k' => ?_, fun k' => ?_⟩
  -- `erase` removes all of the item, which is in the list once
  · rw [ids_remove]
    by_cases hkk : k' = k
    · subst hkk
      rw [if_pos rfl, (h.nodup k').mem_erase_iff, h.mem_ids]
      by_cases hji : j = i <;> simp [hji]
    · rw [if_neg hkk, h.mem_ids]
      by_cases hji : j = i
      · subst hji; simp [hi, Ne.symm hkk]
      · simp [hji]
  · rw [ids_remove]
    split
    · exact (h.nodup k).erase i
    · exact h.nodup k'
  · exact ne_nil_remove h.ne_nil k i k'

/-! ### Listing exactly -/

/-- Every key lists exactly its items, each once; empty lists do not matter. -/
structure Lists (idx : InvertedIndex κ ι) (f : ι → Option κ) : Prop where
  tidy : Tidy idx
  mem_ids : ∀ k i, i ∈ ids idx k ↔ f i = some k

omit [DecidableEq ι] [Std.LawfulEqOrd κ] [DecidableEq κ] in
theorem Exact.lists (h : Exact idx f) : Lists idx f := ⟨h.nodup, h.mem_ids⟩

omit [DecidableEq ι] [Std.LawfulEqOrd κ] [DecidableEq κ] in
/-- An empty index lists no item. -/
theorem lists_empty_iff : Lists (∅ : InvertedIndex κ ι) f ↔ ∀ i, f i = none := by
  constructor
  · intro h i
    refine Option.eq_none_iff_forall_ne_some.mpr fun k hk => ?_
    have hi := (h.mem_ids k i).mpr hk
    rw [ids_empty] at hi
    cases hi
  · intro h
    refine ⟨Tidy.empty, fun k i => ?_⟩
    rw [ids_empty, h i]
    simp

/-- When an index that lists exactly does so after an item was filed again: the
item's keys are then the one it should have, and no other. -/
theorem Lists.refile_iff (h : Lists idx f) {removed filed stored : Option κ} :
    Lists (idx.refile i removed filed) (Function.update f i stored) ↔
      ∀ k, (f i = some k ∧ removed ≠ some k) ∨ filed = some k ↔ stored = some k := by
  have hmem : ∀ k j, j ∈ ids (idx.refile i removed filed) k ↔
      if j = i then (f i = some k ∧ removed ≠ some k) ∨ filed = some k else f j = some k := by
    intro k j
    rw [h.tidy.mem_ids_refile, h.mem_ids]
    split
    · next hj => rw [hj]
    · rfl
  constructor
  · intro h' k
    have hi := h'.mem_ids k i
    rw [hmem, if_pos rfl, Function.update_self] at hi
    exact hi
  · intro hkeys
    refine ⟨h.tidy.refile i removed filed, fun k j => ?_⟩
    rw [hmem]
    split
    · next hj => rw [hj, Function.update_self, hkeys]
    · next hj => rw [Function.update_of_ne hj]

/-! ### Selection -/

omit [DecidableEq ι] [DecidableEq κ] in
theorem nodup_keys (idx : InvertedIndex κ ι) : (idx.toList.map Prod.fst).Nodup := by
  rw [Std.ExtTreeMap.map_fst_toList_eq_keys]
  refine idx.distinct_keys.imp fun {a b} hab heq => ?_
  subst heq
  exact hab Std.ReflCmp.compare_self

omit [DecidableEq ι] [DecidableEq κ] in
/-- A selection finds exactly the items whose key satisfies `p`. -/
theorem Exact.mem_select (h : Exact idx f) (p : κ → Bool) (i : ι) :
    i ∈ select idx p ↔ ∃ k, f i = some k ∧ p k = true := by
  simp only [select, List.mem_flatMap, List.mem_filter, Std.ExtTreeMap.mem_keys]
  constructor
  · rintro ⟨k, ⟨-, hp⟩, hi⟩
    exact ⟨k, (h.mem_ids k i).mp hi, hp⟩
  · rintro ⟨k, hk, hp⟩
    have hi : i ∈ ids idx k := (h.mem_ids k i).mpr hk
    refine ⟨k, ⟨?_, hp⟩, hi⟩
    rw [Std.ExtTreeMap.mem_iff_isSome_getElem?]
    rcases hk' : idx[k]? with _ | l
    · simp [ids, hk'] at hi
    · rfl

omit [DecidableEq ι] [DecidableEq κ] in
/-- A selection finds each item once. -/
theorem Exact.nodup_select (h : Exact idx f) (p : κ → Bool) : (select idx p).Nodup := by
  refine List.nodup_flatMap.mpr ⟨fun k _ => h.nodup k, ?_⟩
  have hkeys : (idx.keys.filter p).Nodup := by
    rw [← Std.ExtTreeMap.map_fst_toList_eq_keys]
    exact idx.nodup_keys.filter p
  refine hkeys.imp fun {a b} hab => ?_
  -- an item under two keys would have both as its key
  intro i ha hb
  have hka : f i = some a := (h.mem_ids a i).mp ha
  have hkb : f i = some b := (h.mem_ids b i).mp hb
  exact hab (Option.some.inj (hka.symm.trans hkb))

omit [Std.LawfulEqOrd κ] [DecidableEq κ] in
/-- How often a selection finds an item: once for every key that lists it. -/
theorem Tidy.count_select (h : Tidy idx) (p : κ → Bool) (i : ι) :
    (select idx p).count i = ((idx.keys.filter p).filter fun k => i ∈ ids idx k).length := by
  rw [select]
  induction idx.keys.filter p with
  | nil => rfl
  | cons k l ih =>
      rw [List.flatMap_cons, List.count_append, ih, (h k).count, List.filter_cons]
      split
      · next hi => rw [if_pos (decide_eq_true hi), List.length_cons, Nat.add_comm]
      · next hi => rw [if_neg (by simpa using hi), Nat.zero_add]

omit [DecidableEq κ] in
/-- A selection finds an item once if it selects one of its keys. -/
theorem Tidy.count_select_eq_one_iff (h : Tidy idx) (p : κ → Bool) (i : ι) :
    (select idx p).count i = 1 ↔ ∃! k, p k = true ∧ i ∈ ids idx k := by
  have hmem : ∀ k, k ∈ (idx.keys.filter p).filter (fun k => i ∈ ids idx k) ↔
      p k = true ∧ i ∈ ids idx k := by
    intro k
    rw [List.mem_filter, List.mem_filter, decide_eq_true_iff, Std.ExtTreeMap.mem_keys]
    refine and_congr_left fun hi => and_iff_right ?_
    -- a key that lists something is there
    rw [Std.ExtTreeMap.mem_iff_isSome_getElem?]
    rcases hk : idx[k]? with _ | l
    · simp [ids, hk] at hi
    · rfl
  have hnodup : ((idx.keys.filter p).filter fun k => i ∈ ids idx k).Nodup := by
    rw [← Std.ExtTreeMap.map_fst_toList_eq_keys]
    exact (idx.nodup_keys.filter p).filter _
  rw [h.count_select, List.length_eq_one_iff]
  constructor
  · rintro ⟨k, hk⟩
    refine ⟨k, (hmem k).mp (hk ▸ List.mem_singleton_self k), fun k' hk' => ?_⟩
    exact List.mem_singleton.mp (hk ▸ (hmem k').mpr hk')
  · rintro ⟨k, hk, hone⟩
    refine ⟨k, List.perm_singleton.mp ?_⟩
    refine (List.perm_ext_iff_of_nodup hnodup (List.nodup_singleton k)).mpr fun k' => ?_
    rw [hmem, List.mem_singleton]
    constructor
    · exact hone k'
    · rintro rfl
      exact hk

/-! ### Saving -/

/-- Enter a list of entries, left to right. -/
def ofEntries (l : List (κ × List ι)) : InvertedIndex κ ι :=
  l.foldl (fun idx e => idx.insert e.1 e.2) ∅

omit [DecidableEq ι] [DecidableEq κ] in
theorem getElem?_foldl_insert {l : List (κ × List ι)} (hl : (l.map Prod.fst).Nodup)
    (idx : InvertedIndex κ ι) (k : κ) (v : List ι) :
    (l.foldl (fun idx e => idx.insert e.1 e.2) idx)[k]? = some v ↔
      (k, v) ∈ l ∨ k ∉ l.map Prod.fst ∧ idx[k]? = some v := by
  induction l generalizing idx with
  | nil => simp
  | cons e l ih =>
      obtain ⟨a, u⟩ := e
      rw [List.map_cons, List.nodup_cons] at hl
      rw [List.foldl_cons, ih hl.2]
      simp only [Std.ExtTreeMap.getElem?_insert, Std.compare_eq_iff_eq]
      by_cases hak : a = k
      · subst hak
        -- no later entry has this key
        have hnot : ∀ x, (a, x) ∉ l := fun x hm => hl.1 (List.mem_map.mpr ⟨_, hm, rfl⟩)
        simp [hnot, eq_comm]
      · have hka : k ≠ a := Ne.symm hak
        simp [hak, hka]

omit [DecidableEq ι] [DecidableEq κ] in
/-- Entering the entries of an index gives the index back. -/
theorem ofEntries_toList (idx : InvertedIndex κ ι) : ofEntries idx.toList = idx := by
  refine Std.ExtTreeMap.ext_getElem? fun k => Option.ext fun v => ?_
  rw [ofEntries, getElem?_foldl_insert idx.nodup_keys]
  simp [Std.ExtTreeMap.mem_toList_iff_getElem?_eq_some]

end InvertedIndex
