/-
JsonpySql/OrdDict.lean

Insertion-ordered dictionaries: a key keeps the place of its first assignment,
and a later assignment to it only replaces the value.  This is the behaviour
of the built-in mapping of several scripting languages, and it is not the
behaviour of `AList.insert`, which moves the key to the front.

The algebra the rest of the development uses is small:

* `set_set`   — a second assignment to a key absorbs the first;
* `set_comm`  — assignments to distinct keys commute *once one of the two keys
  is present* (for two new keys the order of assignment is visible);
* `ext_keys`  — a dictionary is its list of keys together with its lookup.

`assign d l` performs the assignments of a list from left to right.
-/
import Mathlib.Data.List.Induction
import Mathlib.Data.List.Nodup
import Mathlib.Data.List.Basic

/-- Assign `k := v` in a list of entries: replace in place, or append. -/
def setEntry {κ α : Type*} [DecidableEq κ] (k : κ) (v : α) : List (κ × α) → List (κ × α)
  | [] => [(k, v)]
  | e :: l => if e.1 = k then (k, v) :: l else e :: setEntry k v l

section SetEntry

variable {κ α : Type*} [DecidableEq κ]

/-- Lookup at the head of a list of entries, as an `if`. -/
theorem lookup_cons_ite (k : κ) (e : κ × α) (l : List (κ × α)) :
    (e :: l).lookup k = if k = e.1 then some e.2 else l.lookup k := by
  obtain ⟨a, v⟩ := e
  by_cases h : k = a
  · simp [h]
  · have hne : (k == a) = false := beq_false_of_ne h
    simp [List.lookup_cons, hne, h]

/-- Where keys are distinct, a key has one entry or none. -/
theorem filter_fst_eq (k : κ) {l : List (κ × α)} (h : (l.map Prod.fst).Nodup) :
    l.filter (fun e => e.1 = k) = ((l.lookup k).map fun v => (k, v)).toList := by
  induction l with
  | nil => rfl
  | cons e l ih =>
      rw [List.map_cons, List.nodup_cons] at h
      rw [lookup_cons_ite, List.filter_cons]
      rcases eq_or_ne k e.1 with rfl | hne
      · -- the other entries have other keys
        have hnone : l.filter (fun e' => e'.1 = e.1) = [] := by
          rw [List.filter_eq_nil_iff]
          intro e' he' heq
          exact h.1 (List.mem_map.mpr ⟨e', he', of_decide_eq_true heq⟩)
        simp [hnone]
      · simp only [hne, Ne.symm hne, if_false, decide_false, Bool.false_eq_true]
        exact ih h.2

theorem setEntry_keys_of_mem {k : κ} (v : α) {l : List (κ × α)} (h : k ∈ l.map Prod.fst) :
    (setEntry k v l).map Prod.fst = l.map Prod.fst := by
  induction l with
  | nil => simp at h
  | cons e l ih =>
      by_cases he : e.1 = k
      · simp [setEntry, he]
      · have hl : k ∈ l.map Prod.fst := by
          simpa [Ne.symm he] using h
        simp [setEntry, he, ih hl]

theorem setEntry_of_notMem {k : κ} (v : α) {l : List (κ × α)} (h : k ∉ l.map Prod.fst) :
    setEntry k v l = l ++ [(k, v)] := by
  induction l with
  | nil => rfl
  | cons e l ih =>
      simp only [List.map_cons, List.mem_cons, not_or] at h
      simp [setEntry, Ne.symm h.1, ih h.2]

theorem setEntry_nodup (k : κ) (v : α) {l : List (κ × α)} (h : (l.map Prod.fst).Nodup) :
    ((setEntry k v l).map Prod.fst).Nodup := by
  by_cases hk : k ∈ l.map Prod.fst
  · rwa [setEntry_keys_of_mem v hk]
  · rw [setEntry_of_notMem v hk, List.map_append]
    exact h.append (List.nodup_singleton _) (by simpa using hk)

theorem setEntry_setEntry (k : κ) (v v' : α) (l : List (κ × α)) :
    setEntry k v' (setEntry k v l) = setEntry k v' l := by
  induction l with
  | nil => simp [setEntry]
  | cons e l ih =>
      by_cases he : e.1 = k
      · simp [setEntry, he]
      · simp [setEntry, he, ih]

theorem setEntry_comm {k k' : κ} (v v' : α) {l : List (κ × α)} (hk : k ∈ l.map Prod.fst)
    (hne : k ≠ k') :
    setEntry k' v' (setEntry k v l) = setEntry k v (setEntry k' v' l) := by
  induction l with
  | nil => simp at hk
  | cons e l ih =>
      by_cases he : e.1 = k
      -- the head is the entry of `k`, and a write to it moves nothing
      · have hk' : e.1 ≠ k' := fun h => hne (he.symm.trans h)
        simp [setEntry, he, hne]
      · have hl : k ∈ l.map Prod.fst := by simpa [Ne.symm he] using hk
        by_cases he' : e.1 = k'
        · simp [setEntry, he', Ne.symm hne]
        · simp [setEntry, he, he', ih hl]

theorem lookup_setEntry (k k' : κ) (v : α) (l : List (κ × α)) :
    (setEntry k v l).lookup k' = if k' = k then some v else l.lookup k' := by
  induction l with
  | nil => simp [setEntry, lookup_cons_ite]
  | cons e l ih =>
      by_cases he : e.1 = k
      · by_cases h : k' = k <;> simp [setEntry, he, lookup_cons_ite, h]
      · by_cases h : k' = e.1
        · simp [setEntry, he, lookup_cons_ite, h]
        · simp [setEntry, he, lookup_cons_ite, h, ih]

/-- How many entries satisfy a predicate of their values after an assignment. -/
theorem countP_setEntry (p : α → Bool) (k : κ) (v : α) (l : List (κ × α)) :
    (setEntry k v l).countP (fun e => p e.2) + (if (l.lookup k).any p then 1 else 0) =
      l.countP (fun e => p e.2) + if p v then 1 else 0 := by
  induction l with
  | nil => simp [setEntry]
  | cons e l ih =>
      rw [setEntry, lookup_cons_ite]
      by_cases he : e.1 = k
      · rw [if_pos he, if_pos he.symm, List.countP_cons, List.countP_cons, Option.any_some]
        dsimp only
        omega
      · rw [if_neg he, if_neg (Ne.symm he), List.countP_cons, List.countP_cons]
        omega

end SetEntry

/-- An insertion-ordered dictionary: entries in order of first assignment,
no key twice. -/
structure OrdDict (κ : Type*) (α : Type*) where
  entries : List (κ × α)
  nodup : (entries.map Prod.fst).Nodup

namespace OrdDict

variable {κ : Type*} {α β : Type*}

theorem ext_entries {d d' : OrdDict κ α} (h : d.entries = d'.entries) : d = d' := by
  cases d; cases d'; simp_all

instance [DecidableEq κ] [DecidableEq α] : DecidableEq (OrdDict κ α) := fun d d' =>
  decidable_of_iff (d.entries = d'.entries) ⟨ext_entries, fun h => by rw [h]⟩

/-- The empty dictionary. -/
def empty : OrdDict κ α := ⟨[], List.nodup_nil⟩

instance : Inhabited (OrdDict κ α) := ⟨empty⟩

/-- The keys, in order of first assignment. -/
def keys (d : OrdDict κ α) : List κ := d.entries.map Prod.fst

/-- The values, in key order. -/
def values (d : OrdDict κ α) : List α := d.entries.map Prod.snd

/-- Apply a function to every value. -/
def mapValues (f : α → β) (d : OrdDict κ α) : OrdDict κ β where
  entries := d.entries.map fun e => (e.1, f e.2)
  nodup := by simpa [Function.comp_def] using d.nodup

/-- Keep the entries whose key satisfies `p`. -/
def filterKeys (p : κ → Bool) (d : OrdDict κ α) : OrdDict κ α where
  entries := d.entries.filter fun e => p e.1
  nodup := d.nodup.sublist (List.filter_sublist.map _)

/-- Keep the entries whose value satisfies `p`. -/
def filterValues (p : α → Bool) (d : OrdDict κ α) : OrdDict κ α where
  entries := d.entries.filter fun e => p e.2
  nodup := d.nodup.sublist (List.filter_sublist.map _)

variable [DecidableEq κ]

/-- Lookup. -/
def get? (d : OrdDict κ α) (k : κ) : Option α := d.entries.lookup k

/-- Assignment: keeps the place of a key that is already there. -/
def set (d : OrdDict κ α) (k : κ) (v : α) : OrdDict κ α where
  entries := setEntry k v d.entries
  nodup := setEntry_nodup k v d.nodup

/-- Removal of a key. -/
def erase (d : OrdDict κ α) (k : κ) : OrdDict κ α := d.filterKeys (· ≠ k)

/-- Perform a list of assignments, left to right. -/
def assign (d : OrdDict κ α) (l : List (κ × α)) : OrdDict κ α :=
  l.foldl (fun d e => d.set e.1 e.2) d

/-- The dictionary a list of assignments builds from nothing. -/
def ofList (l : List (κ × α)) : OrdDict κ α := empty.assign l

/-! ### Lookup -/

omit [DecidableEq κ] in
theorem keys_nodup (d : OrdDict κ α) : d.keys.Nodup := d.nodup

@[simp] theorem get?_empty (k : κ) : (empty : OrdDict κ α).get? k = none := rfl

omit [DecidableEq κ] in
@[simp] theorem keys_empty : (empty : OrdDict κ α).keys = [] := rfl

theorem get?_eq_none_iff {d : OrdDict κ α} {k : κ} : d.get? k = none ↔ k ∉ d.keys := by
  simp [get?, keys, List.lookup_eq_none_iff]
  exact ⟨fun h x hx => h k x hx rfl, fun h a b hab he => h b (he ▸ hab)⟩

theorem isSome_get?_iff {d : OrdDict κ α} {k : κ} : (d.get? k).isSome ↔ k ∈ d.keys := by
  rw [← not_iff_not, ← get?_eq_none_iff]
  simp

theorem mem_keys_of_get? {d : OrdDict κ α} {k : κ} {v : α} (h : d.get? k = some v) :
    k ∈ d.keys :=
  isSome_get?_iff.mp (by rw [h]; rfl)

/-- The only key of a dictionary is the key of whatever is found in it. -/
theorem eq_of_get?_of_keys {d : OrdDict κ α} {k k' : κ} {v : α} (hkeys : d.keys = [k])
    (h : d.get? k' = some v) : k' = k :=
  List.mem_singleton.mp (hkeys ▸ mem_keys_of_get? h)

theorem exists_get?_of_mem {d : OrdDict κ α} {k : κ} (h : k ∈ d.keys) : ∃ v, d.get? k = some v :=
  Option.isSome_iff_exists.mp (isSome_get?_iff.mpr h)

theorem mem_entries_iff {d : OrdDict κ α} {k : κ} {v : α} :
    (k, v) ∈ d.entries ↔ d.get? k = some v := by
  obtain ⟨l, hl⟩ := d
  simp only [get?]
  induction l with
  | nil => simp
  | cons e l ih =>
      obtain ⟨a, b⟩ := e
      simp only [List.map_cons, List.nodup_cons] at hl
      by_cases h : k = a
      · subst h
        have hnot : (k, v) ∉ l := fun hm => hl.1 (List.mem_map.mpr ⟨_, hm, rfl⟩)
        simp [hnot, eq_comm]
      · simp [lookup_cons_ite, h, ih hl.2]

theorem get?_set (d : OrdDict κ α) (k k' : κ) (v : α) :
    (d.set k v).get? k' = if k' = k then some v else d.get? k' :=
  lookup_setEntry k k' v d.entries

@[simp] theorem get?_set_self (d : OrdDict κ α) (k : κ) (v : α) :
    (d.set k v).get? k = some v := by simp [get?_set]

theorem get?_set_of_ne (d : OrdDict κ α) {k k' : κ} (v : α) (h : k' ≠ k) :
    (d.set k v).get? k' = d.get? k' := by simp [get?_set, h]

theorem keys_set_of_mem {d : OrdDict κ α} {k : κ} (v : α) (h : k ∈ d.keys) :
    (d.set k v).keys = d.keys :=
  setEntry_keys_of_mem v h

theorem keys_set_of_notMem {d : OrdDict κ α} {k : κ} (v : α) (h : k ∉ d.keys) :
    (d.set k v).keys = d.keys ++ [k] := by
  simp [keys, set, setEntry_of_notMem v h]

@[simp] theorem mem_keys_set {d : OrdDict κ α} {k k' : κ} {v : α} :
    k' ∈ (d.set k v).keys ↔ k' = k ∨ k' ∈ d.keys := by
  rw [← isSome_get?_iff, get?_set, ← isSome_get?_iff]
  by_cases h : k' = k <;> simp [h]

/-- A dictionary is its keys together with its lookup. -/
theorem ext_keys {d d' : OrdDict κ α} (hk : d.keys = d'.keys)
    (hg : ∀ k, d.get? k = d'.get? k) : d = d' := by
  obtain ⟨l, hl⟩ := d
  obtain ⟨l', hl'⟩ := d'
  refine ext_entries ?_
  simp only [keys, get?] at *
  induction l generalizing l' with
  | nil => simpa using hk.symm
  | cons e l ih =>
      obtain _ | ⟨e', l'⟩ := l'
      · simp at hk
      simp only [List.map_cons, List.cons.injEq] at hk
      simp only [List.map_cons, List.nodup_cons] at hl hl'
      have hhead : e.2 = e'.2 := by simpa [lookup_cons_ite, hk.1] using hg e.1
      -- the key of the head does not come again, so past it the lookups agree
      have htail : l = l' := by
        refine ih hl.2 l' hl'.2 hk.2 fun k => ?_
        by_cases hke : k = e.1
        · have h1 : l.lookup k = none := by
            simp only [List.lookup_eq_none_iff]
            intro p hp
            have : p.1 ≠ e.1 := fun h => hl.1 (h ▸ List.mem_map_of_mem hp)
            simpa [hke] using this.symm
          have h2 : l'.lookup k = none := by
            simp only [List.lookup_eq_none_iff]
            intro p hp
            have : p.1 ≠ e.1 := fun h => hl'.1 (hk.1 ▸ h ▸ List.mem_map_of_mem hp)
            simpa [hke] using this.symm
          rw [h1, h2]
        · have hke' : k ≠ e'.1 := hk.1 ▸ hke
          simpa [lookup_cons_ite, hke, hke'] using hg k
      rw [htail, Prod.ext hk.1 hhead]

/-! ### Assignment -/

@[simp] theorem set_set (d : OrdDict κ α) (k : κ) (v v' : α) :
    (d.set k v).set k v' = d.set k v' :=
  ext_entries (setEntry_setEntry k v v' d.entries)

theorem set_comm {d : OrdDict κ α} {k k' : κ} (v v' : α) (hk : k ∈ d.keys) (hne : k ≠ k') :
    (d.set k v).set k' v' = (d.set k' v').set k v :=
  ext_entries (setEntry_comm v v' hk hne)

/-- Assigning the value a key already has changes nothing. -/
theorem set_of_get? {d : OrdDict κ α} {k : κ} {v : α} (h : d.get? k = some v) :
    d.set k v = d := by
  have hk : k ∈ d.keys := mem_keys_of_get? h
  refine ext_keys (keys_set_of_mem v hk) fun k' => ?_
  rw [get?_set]
  split
  · next he => rw [he, h]
  · rfl

/-! ### Removal, filtering, mapping -/

theorem get?_filterKeys (d : OrdDict κ α) (p : κ → Bool) (k : κ) :
    (d.filterKeys p).get? k = if p k then d.get? k else none := by
  have hmem : ∀ v, (d.filterKeys p).get? k = some v ↔ d.get? k = some v ∧ p k = true := by
    intro v
    rw [← mem_entries_iff, ← mem_entries_iff]
    simp [filterKeys]
  cases hp : p k <;> cases hd : d.get? k <;> cases hf : (d.filterKeys p).get? k <;>
    simp_all

omit [DecidableEq κ] in
@[simp] theorem mem_keys_filterKeys {d : OrdDict κ α} {p : κ → Bool} {k : κ} :
    k ∈ (d.filterKeys p).keys ↔ k ∈ d.keys ∧ p k = true := by
  simp only [keys, filterKeys, List.mem_map, List.mem_filter]
  constructor
  · rintro ⟨e, ⟨he, hp⟩, rfl⟩
    exact ⟨⟨e, he, rfl⟩, hp⟩
  · rintro ⟨⟨e, he, rfl⟩, hp⟩
    exact ⟨e, ⟨he, hp⟩, rfl⟩

theorem get?_erase (d : OrdDict κ α) (k k' : κ) :
    (d.erase k).get? k' = if k' = k then none else d.get? k' := by
  rw [erase, get?_filterKeys]
  by_cases h : k' = k <;> simp [h]

@[simp] theorem mem_keys_erase {d : OrdDict κ α} {k k' : κ} :
    k' ∈ (d.erase k).keys ↔ k' ∈ d.keys ∧ k' ≠ k := by simp [erase]

theorem erase_of_notMem {d : OrdDict κ α} {k : κ} (h : k ∉ d.keys) : d.erase k = d := by
  refine ext_entries (List.filter_eq_self.mpr fun e he => ?_)
  exact decide_eq_true fun heq => h (heq ▸ List.mem_map_of_mem he)

theorem erase_erase (d : OrdDict κ α) (k : κ) : (d.erase k).erase k = d.erase k := by
  apply ext_entries
  simp only [erase, filterKeys, List.filter_filter, Bool.and_self]

theorem keys_erase (d : OrdDict κ α) (k : κ) : (d.erase k).keys = d.keys.filter (· ≠ k) := by
  simp only [erase, filterKeys, keys, List.filter_map]
  rfl

theorem erase_set (d : OrdDict κ α) (k : κ) (v : α) : (d.set k v).erase k = d.erase k := by
  refine ext_entries ?_
  simp only [erase, filterKeys, set]
  generalize d.entries = l
  induction l with
  | nil => simp [setEntry]
  | cons e l ih =>
      by_cases he : e.1 = k
      · simp [setEntry, he]
      · simpa [setEntry, he] using ih

theorem get?_mapValues (f : α → β) (d : OrdDict κ α) (k : κ) :
    (d.mapValues f).get? k = (d.get? k).map f := by
  obtain ⟨l, hl⟩ := d
  simp only [mapValues, get?]
  clear hl
  induction l with
  | nil => rfl
  | cons e l ih =>
      by_cases h : k = e.1 <;> simp [lookup_cons_ite, h, ih]

omit [DecidableEq κ] in
@[simp] theorem keys_mapValues (f : α → β) (d : OrdDict κ α) :
    (d.mapValues f).keys = d.keys := by
  simp [keys, mapValues, Function.comp_def]

theorem mapValues_set (f : α → β) (d : OrdDict κ α) (k : κ) (v : α) :
    (d.set k v).mapValues f = (d.mapValues f).set k (f v) := by
  refine ext_entries ?_
  simp only [mapValues, set]
  generalize d.entries = l
  induction l with
  | nil => rfl
  | cons e l ih =>
      by_cases h : e.1 = k <;> simp [setEntry, h, ih]

theorem get?_filterValues (d : OrdDict κ α) (p : α → Bool) (k : κ) :
    (d.filterValues p).get? k = (d.get? k).filter p := by
  have hmem : ∀ v, (d.filterValues p).get? k = some v ↔ d.get? k = some v ∧ p v = true := by
    intro v
    rw [← mem_entries_iff, ← mem_entries_iff]
    simp [filterValues]
  refine Option.ext fun v => ?_
  rw [hmem, Option.filter_eq_some_iff]

/-! ### Lists of assignments -/

@[simp] theorem assign_nil (d : OrdDict κ α) : d.assign [] = d := rfl

@[simp] theorem assign_cons (d : OrdDict κ α) (e : κ × α) (l : List (κ × α)) :
    d.assign (e :: l) = (d.set e.1 e.2).assign l := rfl

theorem assign_append (d : OrdDict κ α) (l l' : List (κ × α)) :
    d.assign (l ++ l') = (d.assign l).assign l' := by
  simp [assign]

theorem assign_concat (d : OrdDict κ α) (l : List (κ × α)) (e : κ × α) :
    d.assign (l ++ [e]) = (d.assign l).set e.1 e.2 := by
  simp [assign]

/-- Assigning new keys, each once, appends the entries as they stand. -/
theorem entries_assign_of_nodup {d : OrdDict κ α} {l : List (κ × α)}
    (h : (d.entries ++ l).map Prod.fst |>.Nodup) : (d.assign l).entries = d.entries ++ l := by
  induction l generalizing d with
  | nil => simp
  | cons e l ih =>
      have hnot : e.1 ∉ d.entries.map Prod.fst := by
        rw [List.map_append, List.map_cons, List.nodup_append] at h
        exact fun hm => h.2.2 _ hm _ List.mem_cons_self rfl
      have hset : (d.set e.1 e.2).entries = d.entries ++ [e] := setEntry_of_notMem e.2 hnot
      rw [assign_cons, ih (by rw [hset]; simpa using h), hset]
      simp

theorem entries_ofList_of_nodup {l : List (κ × α)} (h : (l.map Prod.fst).Nodup) :
    (ofList l).entries = l :=
  @entries_assign_of_nodup κ α _ empty l h

theorem mem_keys_assign {d : OrdDict κ α} {l : List (κ × α)} {k : κ} :
    k ∈ (d.assign l).keys ↔ k ∈ d.keys ∨ k ∈ l.map Prod.fst := by
  induction l generalizing d with
  | nil => simp
  | cons e l ih => simp [ih, or_assoc, or_left_comm]

theorem mem_keys_ofList {l : List (κ × α)} {k : κ} :
    k ∈ (ofList l).keys ↔ k ∈ l.map Prod.fst := by
  simp [ofList, mem_keys_assign]

/-- Keys that are not assigned keep their values. -/
theorem get?_assign_of_notMem {d : OrdDict κ α} {l : List (κ × α)} {k : κ}
    (h : k ∉ l.map Prod.fst) : (d.assign l).get? k = d.get? k := by
  induction l generalizing d with
  | nil => rfl
  | cons e l ih =>
      rw [List.map_cons, List.mem_cons, not_or] at h
      rw [assign_cons, ih h.2, get?_set_of_ne d e.2 h.1]

/-- Where each key is assigned once, it gets what is assigned to it. -/
theorem get?_assign_of_mem {d : OrdDict κ α} {l : List (κ × α)} (hl : (l.map Prod.fst).Nodup)
    {e : κ × α} (h : e ∈ l) : (d.assign l).get? e.1 = some e.2 := by
  induction l generalizing d with
  | nil => cases h
  | cons e' l ih =>
      obtain ⟨hnot, hl⟩ := List.nodup_cons.mp hl
      rcases List.mem_cons.mp h with rfl | h
      · rw [assign_cons, get?_assign_of_notMem hnot, get?_set_self]
      · exact ih hl h

/-- Keys that are assigned values that depend on the key alone. -/
theorem get?_assign_map (f : κ → α) {d : OrdDict κ α} {l : List κ} {k : κ} (h : k ∈ l) :
    (d.assign (l.map fun k => (k, f k))).get? k = some (f k) := by
  induction l generalizing d with
  | nil => cases h
  | cons k' l ih =>
      rw [List.map_cons, assign_cons]
      by_cases hk : k ∈ l
      · exact ih hk
      · obtain rfl := (List.mem_cons.mp h).resolve_right hk
        rw [get?_assign_of_notMem (by simpa [Function.comp_def] using hk), get?_set_self]

/-- A dictionary of items by their keys holds the last item with each key. -/
theorem get?_ofList_map (key : α → κ) (l : List α) (k : κ) :
    (ofList (l.map fun a => (key a, a))).get? k = (l.filter fun a => key a = k).getLast? := by
  induction l using List.reverseRecOn with
  | nil => rfl
  | append_singleton l a ih =>
      rw [List.map_append, List.map_singleton, ofList, assign_concat, get?_set, List.filter_append]
      rcases eq_or_ne k (key a) with rfl | hne
      · simp
      · rw [if_neg hne, ← ofList, ih]
        simp [Ne.symm hne]

/-- Assignments put new keys after the old ones. -/
theorem keys_prefix_assign (d : OrdDict κ α) (l : List (κ × α)) :
    d.keys <+: (d.assign l).keys := by
  induction l generalizing d with
  | nil => exact List.prefix_rfl
  | cons e l ih =>
      refine List.IsPrefix.trans ?_ (ih (d.set e.1 e.2))
      -- a key that is there keeps its place, a new one goes to the end
      by_cases h : e.1 ∈ d.keys
      · simp [keys_set_of_mem _ h]
      · simp [keys_set_of_notMem _ h]

theorem mapValues_assign (f : α → β) (d : OrdDict κ α) (l : List (κ × α)) :
    (d.assign l).mapValues f = (d.mapValues f).assign (l.map fun e => (e.1, f e.2)) := by
  induction l generalizing d with
  | nil => rfl
  | cons e l ih => rw [assign_cons, ih, mapValues_set, List.map_cons, assign_cons]

theorem mapValues_ofList (f : α → β) (l : List (κ × α)) :
    (ofList l).mapValues f = ofList (l.map fun e => (e.1, f e.2)) :=
  mapValues_assign f empty l

end OrdDict

/-! ### The last item with each key -/

section Latest

variable {κ α β : Type*} [DecidableEq κ]

/-- The items that no later one with the same key replaces. -/
def latestBy (key : α → κ) : List α → List α
  | [] => []
  | a :: l => if key a ∈ l.map key then latestBy key l else a :: latestBy key l

/-- The items that a later one with the same key replaces. -/
def replacedBy (key : α → κ) : List α → List α
  | [] => []
  | a :: l => if key a ∈ l.map key then a :: replacedBy key l else replacedBy key l

variable {key : α → κ}

theorem filter_latestBy (l : List α) (k : κ) :
    (latestBy key l).filter (fun a => key a = k) =
      ((l.filter fun a => key a = k).getLast?).toList := by
  induction l with
  | nil => rfl
  | cons a l ih =>
      have hlast : key a = k → ((l.filter fun a => key a = k) ≠ [] ↔ key a ∈ l.map key) := by
        rintro rfl
        simp [List.filter_eq_nil_iff]
      rw [latestBy]
      split
      -- a later item with this key takes the place of `a`
      · next hmem =>
          rw [ih]
          by_cases hk : key a = k
          · obtain ⟨b, rest, hrest⟩ := List.exists_cons_of_ne_nil ((hlast hk).mpr hmem)
            rw [List.filter_cons_of_pos (by simpa using hk), hrest, List.getLast?_cons_cons]
          · rw [List.filter_cons_of_neg (by simpa using hk)]
      · next hnot =>
          by_cases hk : key a = k
          · have hnil : (l.filter fun a => key a = k) = [] :=
              not_ne_iff.mp fun h => hnot ((hlast hk).mp h)
            rw [List.filter_cons_of_pos (by simpa using hk),
              List.filter_cons_of_pos (by simpa using hk), ih, hnil]
            rfl
          · rw [List.filter_cons_of_neg (by simpa using hk),
              List.filter_cons_of_neg (by simpa using hk), ih]

/-- An item is left just if it is the last one with its key. -/
theorem mem_latestBy {l : List α} {a : α} :
    a ∈ latestBy key l ↔ (l.filter fun b => key b = key a).getLast? = some a := by
  rw [← Option.mem_toList, ← filter_latestBy, List.mem_filter]
  simp

theorem mem_of_mem_latestBy {l : List α} {a : α} (h : a ∈ latestBy key l) : a ∈ l :=
  List.mem_of_mem_filter (List.mem_of_getLast? (mem_latestBy.mp h))

theorem nodup_map_latestBy (l : List α) : ((latestBy key l).map key).Nodup := by
  induction l with
  | nil => exact List.nodup_nil
  | cons a l ih =>
      rw [latestBy]
      split
      · exact ih
      · next hnot =>
          refine List.nodup_cons.mpr ⟨fun hmem => hnot ?_, ih⟩
          obtain ⟨b, hb, heq⟩ := List.mem_map.mp hmem
          exact List.mem_map.mpr ⟨b, mem_of_mem_latestBy hb, heq⟩

/-- Every item is left or replaced. -/
theorem countP_latestBy_add (p : α → Bool) (l : List α) :
    (latestBy key l).countP p + (replacedBy key l).countP p = l.countP p := by
  induction l with
  | nil => rfl
  | cons a l ih =>
      rw [latestBy, replacedBy]
      split <;> simp only [List.countP_cons] <;> omega

theorem latestBy_map (f : β → α) (l : List β) :
    latestBy key (l.map f) = (latestBy (key ∘ f) l).map f := by
  induction l with
  | nil => rfl
  | cons b l ih =>
      rw [List.map_cons, latestBy, latestBy, List.map_map, ih]
      split
      · next h => exact (if_pos h).symm ▸ rfl
      · next h => exact (if_neg h).symm ▸ rfl

/-- A condition on the key may be asked before or after. -/
theorem latestBy_filter (p : κ → Bool) (l : List α) :
    latestBy key (l.filter fun a => p (key a)) = (latestBy key l).filter fun a => p (key a) := by
  induction l with
  | nil => rfl
  | cons a l ih =>
      have hmem : p (key a) = true → (key a ∈ (l.filter fun a => p (key a)).map key ↔
          key a ∈ l.map key) := by
        intro hp
        simp only [List.mem_map, List.mem_filter]
        constructor
        · rintro ⟨b, ⟨hb, -⟩, heq⟩
          exact ⟨b, hb, heq⟩
        · rintro ⟨b, hb, heq⟩
          exact ⟨b, ⟨hb, heq ▸ hp⟩, heq⟩
      rcases hp : p (key a) with _ | _
      · rw [List.filter_cons_of_neg (by simp [hp]), ih, latestBy]
        split
        · rfl
        · rw [List.filter_cons_of_neg (by simp [hp])]
      · rw [List.filter_cons_of_pos (by simp [hp]), latestBy, latestBy, ih]
        by_cases hk : key a ∈ l.map key
        · rw [if_pos ((hmem hp).mpr hk), if_pos hk]
        · rw [if_neg (mt (hmem hp).mp hk), if_neg hk, List.filter_cons_of_pos (by simp [hp])]

end Latest
