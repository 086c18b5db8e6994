/-
JsonpySql/LastWins.lean

Last-wins stores: states on which keyed writes act, where a later write to a
key absorbs an earlier one and the only other thing a write leaves behind is
the *place* its key got when it was first written.

    has_put   a write adds its key and no other
    put_put   the later of two writes to one key wins
    put_comm  a write to a key that is already there commutes with a write
              to any other key

These three laws are all that write-ahead logging with deduplication needs:

* `run_ofList`  — a list of writes may be replaced by its last-wins
  deduplication, the entries keeping the place of the first write to their key;
* `run_run`     — running a list of writes twice is running it once;
* `Absorbs`     — hence any number of partial runs before a full run is
  invisible (`absorbs_run_prefix`).

An insertion-ordered dictionary is such a store (`LastWins.dict`), and so are a
map with a place for every key (`LastWins.map`) and any family of stores
(`LastWins.pi`), a write naming the member it goes to.
-/
import Mathlib.Data.List.Induction
import JsonpySql.OrdDict

/-- Keyed writes acting on a state, the last write to a key winning. -/
structure LastWins (S κ ν : Type*) where
  put : S → κ → ν → S
  has : S → κ → Prop
  has_put : ∀ s k v k', has (put s k v) k' ↔ k' = k ∨ has s k'
  put_put : ∀ s k v v', put (put s k v) k v' = put s k v'
  put_comm : ∀ s k v k' v', has s k → k ≠ k' →
    put (put s k v) k' v' = put (put s k' v') k v

namespace LastWins

variable {S κ ν : Type*} (A : LastWins S κ ν)

/-- Perform a list of writes, left to right. -/
def run (s : S) (l : List (κ × ν)) : S := l.foldl (fun s e => A.put s e.1 e.2) s

@[simp] theorem run_nil (s : S) : A.run s [] = s := rfl

@[simp] theorem run_cons (s : S) (e : κ × ν) (l : List (κ × ν)) :
    A.run s (e :: l) = A.run (A.put s e.1 e.2) l := rfl

theorem run_append (s : S) (l l' : List (κ × ν)) :
    A.run s (l ++ l') = A.run (A.run s l) l' := by
  simp [run]

theorem has_run {s : S} {l : List (κ × ν)} {k : κ} :
    A.has (A.run s l) k ↔ A.has s k ∨ k ∈ l.map Prod.fst := by
  induction l generalizing s with
  | nil => simp
  | cons e l ih => simp [ih, A.has_put, or_assoc, or_left_comm]

/-- A write to a present key that the list does not write commutes with the
whole list. -/
theorem put_run {s : S} {k : κ} (v : ν) {l : List (κ × ν)} (hk : A.has s k)
    (hl : k ∉ l.map Prod.fst) : A.put (A.run s l) k v = A.run (A.put s k v) l := by
  induction l generalizing s with
  | nil => rfl
  | cons e l ih =>
      simp only [List.map_cons, List.mem_cons, not_or] at hl
      have hk' : A.has (A.put s e.1 e.2) k := (A.has_put ..).mpr (Or.inr hk)
      rw [run_cons, run_cons, ih hk' hl.2, A.put_comm s k v e.1 e.2 hk hl.1]

/-! ### Replay -/

/-- Rewriting a key with a list that still writes it later is invisible. -/
theorem run_put_of_mem {s : S} {k : κ} (v : ν) {l : List (κ × ν)} (hk : A.has s k)
    (hl : k ∈ l.map Prod.fst) : A.run (A.put s k v) l = A.run s l := by
  induction l generalizing s with
  | nil => simp at hl
  | cons e l ih =>
      by_cases he : k = e.1
      -- the list starts with a write to the key
      · rw [run_cons, run_cons, ← he, A.put_put]
      · have hl' : k ∈ l.map Prod.fst := by simpa [he] using hl
        have hk' : A.has (A.put s e.1 e.2) k := (A.has_put ..).mpr (Or.inr hk)
        rw [run_cons, run_cons, A.put_comm s k v e.1 e.2 hk he, ih hk' hl']

/-- A write to a key the list does not write commutes with a list that writes
only present keys. -/
theorem run_put_of_notMem {s : S} {k : κ} (v : ν) {l : List (κ × ν)}
    (hs : ∀ e ∈ l, A.has s e.1) (hl : k ∉ l.map Prod.fst) :
    A.run (A.put s k v) l = A.put (A.run s l) k v := by
  induction l generalizing s with
  | nil => rfl
  | cons e l ih =>
      simp only [List.map_cons, List.mem_cons, not_or] at hl
      have he : A.has s e.1 := hs e List.mem_cons_self
      have hs' : ∀ e' ∈ l, A.has (A.put s e.1 e.2) e'.1 := fun e' he' =>
        (A.has_put ..).mpr (Or.inr (hs e' (List.mem_cons_of_mem _ he')))
      rw [run_cons, run_cons, ← A.put_comm s e.1 e.2 k v he (Ne.symm hl.1), ih hs' hl.2]

/-- **Replay is idempotent.** -/
theorem run_run (s : S) (l : List (κ × ν)) : A.run (A.run s l) l = A.run s l := by
  induction l using List.reverseRecOn generalizing s with
  | nil => rfl
  | append_singleton l e ih =>
      have hone : ∀ t, A.run t (l ++ [e]) = A.put (A.run t l) e.1 e.2 := fun t => by
        rw [run_append]; rfl
      rw [hone, hone]
      by_cases hl : e.1 ∈ l.map Prod.fst
      · -- the second copy of `l` rewrites the key anyway
        have hk : A.has (A.run s l) e.1 := A.has_run.mpr (Or.inr hl)
        rw [A.run_put_of_mem e.2 hk hl, ih]
      · -- the first copy of `l` has made its keys present
        have hs : ∀ e' ∈ l, A.has (A.run s l) e'.1 := fun e' he' =>
          A.has_run.mpr (Or.inr (List.mem_map_of_mem he'))
        rw [A.run_put_of_notMem e.2 hs hl, ih, A.put_put]

/-- A partial run before a full one is invisible. -/
theorem run_run_prefix (s : S) {p l : List (κ × ν)} (h : p <+: l) :
    A.run (A.run s p) l = A.run s l := by
  obtain ⟨q, rfl⟩ := h
  rw [run_append, run_run, run_append]

/-- `s'` absorbs into `s` under `l`: running `l` on either gives the same. -/
def Absorbs (l : List (κ × ν)) (s s' : S) : Prop := A.run s' l = A.run s l

theorem absorbs_refl (l : List (κ × ν)) (s : S) : A.Absorbs l s s := rfl

/-- Absorption survives one more partial run. -/
theorem Absorbs.run_prefix {p l : List (κ × ν)} {s s' : S} (h : A.Absorbs l s s')
    (hp : p <+: l) : A.Absorbs l s (A.run s' p) :=
  (A.run_run_prefix s' hp).trans h

/-! ### Families -/

/-- A family of last-wins stores; a write names the member it goes to. -/
def pi {I : Type*} [DecidableEq I] (A : LastWins S κ ν) : LastWins (I → S) (I × κ) ν where
  put f ik v := Function.update f ik.1 (A.put (f ik.1) ik.2 v)
  has f ik := A.has (f ik.1) ik.2
  has_put f ik v ik' := by
    obtain ⟨i, k⟩ := ik
    obtain ⟨i', k'⟩ := ik'
    by_cases hi : i' = i
    · subst hi; simp [A.has_put]
    · simp [hi]
  put_put f ik v v' := by simp [A.put_put]
  put_comm f ik v ik' v' hk hne := by
    obtain ⟨i, k⟩ := ik
    obtain ⟨i', k'⟩ := ik'
    by_cases hi : i = i'
    -- one member: its own law
    · subst hi
      have hkk : k ≠ k' := fun h => hne (by rw [h])
      simp [A.put_comm _ k v k' v' hk hkk]
    -- two members: the updates do not meet
    · simp only [Function.update_of_ne (Ne.symm hi), Function.update_of_ne hi]
      exact Function.update_comm hi _ _ _

/-- Member `i` of the family sees the writes that name it. -/
theorem pi_run_apply {I : Type*} [DecidableEq I] (A : LastWins S κ ν) (f : I → S)
    (l : List ((I × κ) × ν)) (i : I) :
    A.pi.run f l i =
      A.run (f i) ((l.filter fun e => e.1.1 = i).map fun e => (e.1.2, e.2)) := by
  induction l generalizing f with
  | nil => rfl
  | cons e l ih =>
      obtain ⟨⟨j, k⟩, v⟩ := e
      rw [run_cons, ih]
      by_cases hj : j = i
      · subst hj; simp [pi]
      · simp [pi, hj, Function.update_of_ne (Ne.symm hj)]

/-! ### Deduplication -/

variable [DecidableEq κ]

/-- Assigning in the list of writes is writing after the list. -/
theorem run_setEntry (s : S) (k : κ) (v : ν) {l : List (κ × ν)}
    (hl : (l.map Prod.fst).Nodup) : A.run s (setEntry k v l) = A.put (A.run s l) k v := by
  induction l generalizing s with
  | nil => rfl
  | cons e l ih =>
      simp only [List.map_cons, List.nodup_cons] at hl
      by_cases he : e.1 = k
      · have hk : A.has (A.put s k e.2) k := (A.has_put ..).mpr (Or.inl rfl)
        have hnot : k ∉ l.map Prod.fst := he ▸ hl.1
        simp only [setEntry, he, if_true, run_cons]
        -- the key is not written again, so its write can wait until the end
        rw [A.put_run v hk hnot, A.put_put]
      · simp only [setEntry, he, if_false, run_cons]
        exact ih _ hl.2

/-- **Deduplication is invisible.**  The last-wins deduplication of a list of
writes, each entry at the place of the first write to its key, acts like the
list. -/
theorem run_ofList (s : S) (l : List (κ × ν)) :
    A.run s (OrdDict.ofList l).entries = A.run s l := by
  induction l using List.reverseRecOn with
  | nil => rfl
  | append_singleton l e ih =>
      have hset : (OrdDict.ofList (l ++ [e])) = (OrdDict.ofList l).set e.1 e.2 := by
        simp [OrdDict.ofList, OrdDict.assign_append]
      rw [hset, run_append]
      change A.run s (setEntry e.1 e.2 (OrdDict.ofList l).entries) = _
      rw [A.run_setEntry s e.1 e.2 (OrdDict.ofList l).nodup, ih]
      rfl

/-- Assignment in an insertion-ordered dictionary. -/
def dict (κ ν : Type*) [DecidableEq κ] : LastWins (OrdDict κ ν) κ ν where
  put d k v := d.set k v
  has d k := k ∈ d.keys
  has_put _ _ _ _ := OrdDict.mem_keys_set
  put_put := OrdDict.set_set
  put_comm _ _ v _ v' hk hne := OrdDict.set_comm v v' hk hne

theorem dict_run (d : OrdDict κ ν) (l : List (κ × ν)) : (dict κ ν).run d l = d.assign l := rfl

/-- Assignment in a map that has a place for every key. -/
def map (κ ν : Type*) [DecidableEq κ] : LastWins (κ → Option ν) κ ν where
  put f k v := Function.update f k (some v)
  has _ _ := True
  has_put _ _ _ _ := (or_true _).symm ▸ Iff.rfl
  put_put f _ _ _ := Function.update_idem _ _ f
  put_comm f _ _ _ _ _ hne := Function.update_comm hne _ _ f

theorem map_run_of_notMem (f : κ → Option ν) {l : List (κ × ν)} {k : κ}
    (hk : k ∉ l.map Prod.fst) : (map κ ν).run f l k = f k := by
  induction l generalizing f with
  | nil => rfl
  | cons e l ih =>
      rw [List.map_cons, List.mem_cons, not_or] at hk
      rw [run_cons, ih _ hk.2]
      exact Function.update_of_ne hk.1 _ f

/-- A key whose writes all have one value is left with this value. -/
theorem map_run_of_forall (f : κ → Option ν) {l : List (κ × ν)} {k : κ} {v : ν}
    (hk : k ∈ l.map Prod.fst) (hv : ∀ e ∈ l, e.1 = k → e.2 = v) :
    (map κ ν).run f l k = some v := by
  induction l using List.reverseRecOn with
  | nil => cases hk
  | append_singleton l e ih =>
      rw [run_append]
      show Function.update ((map κ ν).run f l) e.1 (some e.2) k = some v
      rcases eq_or_ne k e.1 with rfl | hne
      · rw [Function.update_self, hv e (by simp) rfl]
      · rw [Function.update_of_ne hne]
        exact ih (by simpa [hne] using hk) fun e' he' => hv e' (by simp [he'])

/-- Each of distinct keys is left with its value. -/
theorem map_run_of_nodup (f : κ → Option ν) {l : List (κ × ν)} (hl : (l.map Prod.fst).Nodup)
    {e : κ × ν} (he : e ∈ l) : (map κ ν).run f l e.1 = some e.2 := by
  apply map_run_of_forall f (List.mem_map_of_mem he)
  intro e' he' hkey
  rw [List.inj_on_of_nodup_map hl he' he hkey]

end LastWins
