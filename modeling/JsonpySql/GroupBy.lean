/-
JsonpySql/GroupBy.lean

Grouping by a key, the groups in the order in which their keys first occur.

The loop files one element after the other under its key (`add`).  What it leaves
is one group for each distinct key, holding the elements with this key in their
order (`collect_eq`).  Grouping once more by a function of the key puts the
groups together again: the members of a coarse group are those of the fine
groups whose key maps to it (`perm_coarse`).
-/
import Mathlib.Algebra.Order.Ring.Nat
import Mathlib.Data.List.Induction
import Mathlib.Data.List.Nodup
import Mathlib.Data.List.Perm.Basic

namespace GroupBy

variable {κ α μ : Type*}

/-- File an element under its key: in its group, or in a new one at the end. -/
def add (same : κ → κ → Bool) (k : κ) (a : α) : List (κ × List α) → List (κ × List α)
  | [] => [(k, [a])]
  | g :: groups => if same g.1 k then (g.1, g.2 ++ [a]) :: groups else g :: add same k a groups

/-- File the elements of a list, one after the other. -/
def collect (same : κ → κ → Bool) (key : α → κ) (l : List α) (groups : List (κ × List α)) :
    List (κ × List α) :=
  l.foldl (fun groups a => add same (key a) a groups) groups

variable [DecidableEq κ]

/-- The keys of a list, in the order in which they first occur. -/
def keys (key : α → κ) (l : List α) : List κ := (l.map key).eraseDups

/-- The elements of a list with a key. -/
def members (key : α → κ) (l : List α) (k : κ) : List α := l.filter fun a => key a = k

section Keys

variable {key : α → κ} {l : List α} {k : κ}

@[simp] theorem mem_keys : k ∈ keys key l ↔ ∃ a ∈ l, key a = k := by
  simp [keys]

theorem keys_concat (a : α) : keys key (l ++ [a]) =
    if key a ∈ l.map key then keys key l else keys key l ++ [key a] := by
  rw [keys, List.map_append, List.eraseDups_append, ← keys]
  have hnew : (List.map key [a]).removeAll (l.map key) =
      if key a ∈ l.map key then [] else [key a] := by
    rw [List.map_cons, List.map_nil, List.removeAll, List.filter_cons, List.filter_nil]
    by_cases h : key a ∈ l.map key
    · rw [if_pos h, if_neg (by simpa using h)]
    · rw [if_neg h, if_pos (by simpa using h)]
  rw [hnew]
  split
  · exact List.append_nil _
  · simp [List.eraseDups_cons]

theorem nodup_keys : (keys key l).Nodup := by
  induction l using List.reverseRecOn with
  | nil => exact List.nodup_nil
  | append_singleton l a ih =>
      rw [keys_concat]
      split
      · exact ih
      · rename_i hnew
        refine List.Nodup.append ih (List.nodup_singleton _) ?_
        simpa [keys] using hnew

@[simp] theorem mem_members {a : α} : a ∈ members key l k ↔ a ∈ l ∧ key a = k := by
  simp [members]

theorem members_concat (a : α) (k : κ) :
    members key (l ++ [a]) k = members key l k ++ if key a = k then [a] else [] := by
  by_cases h : key a = k <;> simp [members, List.filter_append, h]

end Keys

/-! ### What the loop leaves -/

section Collect

variable {same : κ → κ → Bool} {key : α → κ} {l : List α}

/-- One element, where the groups are listed by their distinct keys. -/
theorem add_map {k : κ} {a : α} {ks : List κ} {f : κ → List α} (hks : ks.Nodup)
    (hsame : ∀ k' ∈ ks, same k' k = decide (k' = k)) :
    add same k a (ks.map fun k' => (k', f k')) =
      if k ∈ ks then ks.map fun k' => (k', f k' ++ if k = k' then [a] else [])
      else (ks.map fun k' => (k', f k')) ++ [(k, [a])] := by
  induction ks with
  | nil => rfl
  | cons k₀ ks ih =>
      obtain ⟨hnot, hks⟩ := List.nodup_cons.mp hks
      rw [List.map_cons, add, hsame k₀ List.mem_cons_self]
      rcases eq_or_ne k₀ k with rfl | hne
      · -- the other groups have other keys
        have hrest : (ks.map fun k' => (k', f k')) =
            ks.map fun k' => (k', f k' ++ if k₀ = k' then [a] else []) := by
          refine List.map_congr_left fun k' hk' => ?_
          rw [if_neg fun h : k₀ = k' => hnot (h ▸ hk'), List.append_nil]
        simp [hrest]
      · rw [ih hks fun k' hk' => hsame k' (List.mem_cons_of_mem _ hk')]
        have hmem : k ∈ k₀ :: ks ↔ k ∈ ks := by simp [Ne.symm hne]
        by_cases h : k ∈ ks
        · simp [h, hne, Ne.symm hne]
        · simp [h, hne, Ne.symm hne]

/-- **The loop** leaves one group for each key. -/
theorem collect_eq (hsame : ∀ a ∈ l, ∀ b ∈ l, same (key a) (key b) = decide (key a = key b)) :
    collect same key l [] = (keys key l).map fun k => (k, members key l k) := by
  induction l using List.reverseRecOn with
  | nil => rfl
  | append_singleton l a ih =>
      have hl : collect same key l [] = _ := ih fun b hb c hc =>
        hsame b (List.mem_append_left _ hb) c (List.mem_append_left _ hc)
      have hstep : collect same key (l ++ [a]) [] = add same (key a) a (collect same key l []) := by
        rw [collect, List.foldl_append]
        rfl
      rw [hstep, hl, add_map nodup_keys ?_]
      · simp only [members_concat, keys_concat, mem_keys, List.mem_map]
        split
        · rfl
        · rename_i hnew
          have hold : ∀ k ∈ keys key l, key a ≠ k := by
            rintro k hk rfl
            exact hnew (mem_keys.mp hk)
          have hempty : members key l (key a) = [] := by
            rw [members, List.filter_eq_nil_iff]
            intro b hb hkey
            exact hnew ⟨b, hb, of_decide_eq_true hkey⟩
          rw [List.map_append, List.map_cons, List.map_nil, hempty, if_pos rfl]
          refine congrArg (· ++ [(key a, [a])]) (List.map_congr_left fun k hk => ?_)
          rw [if_neg (hold k hk), List.append_nil]
      · intro k hk
        obtain ⟨b, hb, rfl⟩ := mem_keys.mp hk
        exact hsame b (List.mem_append_left _ hb) a (List.mem_append_right _ List.mem_cons_self)

end Collect

/-! ### Coarser groups, other orders -/

section Coarse

variable {key : α → κ} {l l' : List α}

/-- The members of some groups, one group after the other. -/
theorem perm_members {ks : List κ} (hks : ks.Nodup) :
    (ks.flatMap (members key l)).Perm (l.filter fun a => key a ∈ ks) := by
  induction ks with
  | nil => simp
  | cons k ks ih =>
      obtain ⟨hnot, hks⟩ := List.nodup_cons.mp hks
      rw [List.flatMap_cons]
      refine ((ih hks).append_left _).trans ?_
      -- the members of the first group, and those of the others
      have hsplit := List.filter_append_perm (fun a => key a = k)
        (l.filter fun a => key a ∈ k :: ks)
      rw [List.filter_filter, List.filter_filter] at hsplit
      refine List.Perm.trans (List.Perm.of_eq ?_) hsplit
      refine congrArg₂ (· ++ ·) (List.filter_congr fun a _ => ?_) (List.filter_congr fun a _ => ?_)
      · simp only [List.mem_cons]
        by_cases h : key a = k <;> simp [h]
      · simp only [List.mem_cons]
        by_cases h : key a = k
        · simp [h, hnot]
        · simp [h]

/-- All groups together are the list. -/
theorem perm_all : ((keys key l).flatMap (members key l)).Perm l := by
  refine (perm_members nodup_keys).trans (List.Perm.of_eq ?_)
  refine List.filter_eq_self.mpr fun a ha => ?_
  exact decide_eq_true (mem_keys.mpr ⟨a, ha, rfl⟩)

/-- The sizes of the groups add up to the length of the list. -/
theorem sum_length_members (key : α → κ) (l : List α) :
    ((keys key l).map fun k => (members key l k).length).sum = l.length := by
  rw [← List.length_flatMap]
  exact perm_all.length_eq

/-- **A coarse group** is made of the fine groups whose key maps to its own. -/
theorem perm_coarse [DecidableEq μ] (f : κ → μ) (m : μ) :
    (((keys key l).filter fun k => f k = m).flatMap (members key l)).Perm
      (members (fun a => f (key a)) l m) := by
  refine (perm_members (nodup_keys.filter _)).trans (List.Perm.of_eq ?_)
  refine List.filter_congr fun a ha => ?_
  have hkey : key a ∈ keys key l := mem_keys.mpr ⟨a, ha, rfl⟩
  simp only [List.mem_filter, hkey, true_and, decide_eq_true_eq]

/-- The order of the elements changes the order of the groups only. -/
theorem keys_perm (h : l.Perm l') : (keys key l).Perm (keys key l') := by
  refine (List.perm_ext_iff_of_nodup nodup_keys nodup_keys).mpr fun k => ?_
  simp only [mem_keys, h.mem_iff]

theorem members_perm (h : l.Perm l') (k : κ) : (members key l k).Perm (members key l' k) :=
  h.filter _

end Coarse

end GroupBy
