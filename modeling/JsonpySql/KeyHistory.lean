/-
JsonpySql/KeyHistory.lean

The keys one item is listed under in an inverted index, over its history.

A step in the history of an item files the item under a key, or under none, and
removes it from under the key it had before, unless the step forgets to.  The
item is then listed under the key it has, and besides under the keys that some
step has left behind: it forgot to remove them, or filed the item under them for
nothing, and no step since has had them (`listedAfter_iff`).
-/
import JsonpySql.InvertedIndex

/-- A step in the history of an item: whether it leaves the old key listed, what
it files the item under, and the key the item has afterwards. -/
structure KeyStep (κ : Type*) where
  forgets : Bool
  filed : Option κ
  key : Option κ

namespace KeyStep

variable {κ : Type*} {s : KeyStep κ} {l : List (KeyStep κ)} {before : Option κ} {k : κ}

/-- The key a step removes the item from under. -/
def removed (s : KeyStep κ) (before : Option κ) : Option κ := if s.forgets then none else before

/-- The keys the item is listed under after a step. -/
def listed (s : KeyStep κ) (before : Option κ) (P : κ → Prop) (k : κ) : Prop :=
  (P k ∧ s.removed before ≠ some k) ∨ s.filed = some k

/-- The keys the item is listed under after some steps. -/
def listedAfter : List (KeyStep κ) → Option κ → (κ → Prop) → κ → Prop
  | [], _, P => P
  | s :: l, before, P => listedAfter l s.key (s.listed before P)

/-- The key the item has after some steps. -/
def keyAfter (l : List (KeyStep κ)) (before : Option κ) : Option κ :=
  l.foldl (fun _ s => s.key) before

/-- A step leaves a key behind: it does not remove it, or files the item under it,
and neither this step nor a later one has the key. -/
def LeftBehind (l : List (KeyStep κ)) (before : Option κ) (k : κ) : Prop :=
  ∃ earlier s later, l = earlier ++ s :: later ∧
    (s.forgets = true ∧ keyAfter earlier before = some k ∨ s.filed = some k) ∧
    ∀ s' ∈ s :: later, s'.key ≠ some k

theorem leftBehind_nil : ¬LeftBehind [] before k := by
  rintro ⟨earlier, s, later, hl, -⟩
  exact List.append_ne_nil_of_right_ne_nil _ (List.cons_ne_nil _ _) hl.symm

/-- A place in a list is its head or a place in its tail. -/
theorem exists_place_cons {α : Type*} {a : α} {l : List α} {P : List α → α → List α → Prop} :
    (∃ earlier b later, a :: l = earlier ++ b :: later ∧ P earlier b later) ↔
      P [] a l ∨ ∃ earlier b later, l = earlier ++ b :: later ∧ P (a :: earlier) b later := by
  constructor
  · rintro ⟨_ | ⟨a', earlier⟩, b, later, hl, hP⟩
    · obtain ⟨rfl, rfl⟩ := List.cons.inj hl
      exact Or.inl hP
    · obtain ⟨rfl, rfl⟩ := List.cons.inj hl
      exact Or.inr ⟨earlier, b, later, rfl, hP⟩
  · rintro (hP | ⟨earlier, b, later, rfl, hP⟩)
    · exact ⟨[], a, l, rfl, hP⟩
    · exact ⟨a :: earlier, b, later, rfl, hP⟩

/-- A key is left behind by the first step or by a later one. -/
theorem leftBehind_cons : LeftBehind (s :: l) before k ↔
    ((s.forgets = true ∧ before = some k ∨ s.filed = some k) ∧
      ∀ s' ∈ s :: l, s'.key ≠ some k) ∨ LeftBehind l s.key k :=
  exists_place_cons

/-- A list whose last steps do not have a key does not end with it. -/
theorem keyAfter_ne (h : ∀ s' ∈ s :: l, s'.key ≠ some k) (before : Option κ) :
    keyAfter (s :: l) before ≠ some k := by
  induction l generalizing s before with
  | nil => exact h s List.mem_cons_self
  | cons s' l ih => exact ih (fun s'' hs'' => h s'' (List.mem_cons_of_mem _ hs'')) s.key

/-- What is left behind is not the key the item has. -/
theorem LeftBehind.keyAfter_ne (h : LeftBehind l before k) : keyAfter l before ≠ some k := by
  obtain ⟨earlier, s, later, rfl, -, hnever⟩ := h
  rw [keyAfter, List.foldl_append]
  exact KeyStep.keyAfter_ne hnever _

/-- One step: listed are the key the item has and the stale ones, which are those
that were stale and those the step leaves behind, if the step does not have
them. -/
theorem listed_iff {P stale : κ → Prop} (hfiled : ∀ k, s.key = some k → s.filed = some k)
    (hP : ∀ k, P k ↔ before = some k ∨ stale k) (hstale : ∀ k, stale k → before ≠ some k) (k : κ) :
    s.listed before P k ↔ s.key = some k ∨
      ((stale k ∨ s.forgets = true ∧ before = some k ∨ s.filed = some k) ∧ s.key ≠ some k) := by
  rw [listed, hP, removed]
  rcases Classical.em (s.key = some k) with hkey | hkey
  · simp [hkey, hfiled k hkey]
  · have hold : before = some k → ¬stale k := fun hbefore hk => hstale k hk hbefore
    rcases hforgets : s.forgets with _ | _
    -- the old key is removed, so only the stale ones stay
    · simp only [hkey, Bool.false_eq_true, if_false, false_and, false_or, not_false_iff, and_true,
        ne_eq]
      tauto
    · simp only [hkey, if_true, false_or, not_false_iff, and_true, ne_eq, true_and]
      simp only [reduceCtorEq, not_false_iff, and_true]
      tauto

/-- **What an item is listed under after its history**: the key it has, the keys
that were stale before and that no step has had, and those left behind. -/
theorem listedAfter_iff {P stale : κ → Prop}
    (hfiled : ∀ s ∈ l, ∀ k, s.key = some k → s.filed = some k)
    (hP : ∀ k, P k ↔ before = some k ∨ stale k) (hstale : ∀ k, stale k → before ≠ some k) (k : κ) :
    listedAfter l before P k ↔ keyAfter l before = some k ∨
      (stale k ∧ ∀ s ∈ l, s.key ≠ some k) ∨ LeftBehind l before k := by
  induction l generalizing before P stale with
  | nil => simp [listedAfter, keyAfter, hP, leftBehind_nil]
  | cons s l ih =>
      have hstep := listed_iff (hfiled s List.mem_cons_self) hP hstale
      rw [listedAfter, ih (fun s' hs' => hfiled s' (List.mem_cons_of_mem _ hs')) hstep
        (fun _ h => h.2), leftBehind_cons, List.forall_mem_cons]
      show keyAfter l s.key = some k ∨ _ ↔ keyAfter l s.key = some k ∨ _
      tauto

/-- An item that was listed under its key alone. -/
theorem listedAfter_iff_of_exact {P : κ → Prop}
    (hfiled : ∀ s ∈ l, ∀ k, s.key = some k → s.filed = some k)
    (hP : ∀ k, P k ↔ before = some k) (k : κ) :
    listedAfter l before P k ↔ keyAfter l before = some k ∨ LeftBehind l before k := by
  have hnone : ∀ k, P k ↔ before = some k ∨ (fun _ : κ => False) k := fun k => by
    rw [hP, or_false]
  rw [listedAfter_iff hfiled hnone (fun _ h => h.elim)]
  simp

/-- Filing an item again in an index is such a step. -/
theorem mem_ids_refile {ι : Type*} [Ord κ] [Std.TransOrd κ] [Std.LawfulEqOrd κ] [DecidableEq κ]
    [DecidableEq ι] {idx : InvertedIndex κ ι} (h : InvertedIndex.Tidy idx) (i j : ι) :
    j ∈ InvertedIndex.ids (idx.refile i (s.removed before) s.filed) k ↔
      if j = i then s.listed before (fun k => j ∈ InvertedIndex.ids idx k) k
      else j ∈ InvertedIndex.ids idx k :=
  h.mem_ids_refile

end KeyStep
