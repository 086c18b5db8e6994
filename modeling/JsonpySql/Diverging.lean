/-
JsonpySql/Diverging.lean

Lists that part: a common beginning, and then two different elements.

Texts that are printed part by part differ as soon as one part does, unless one
part is a beginning of the other.  Parting excludes this, and it survives
whatever is put in front (`Diverging.prepend`) and behind (`Diverging.append`),
so it passes from the parts to the whole (`diverging_intercalate`).
-/
import Mathlib.Data.List.Basic

variable {α β : Type*}

/-- A common beginning, and then two different elements. -/
def Diverging (s t : List α) : Prop :=
  ∃ p a s' b t', a ≠ b ∧ s = p ++ a :: s' ∧ t = p ++ b :: t'

namespace Diverging

variable {s t : List α}

theorem of_head {a b : α} (hs : s.head? = some a) (ht : t.head? = some b) (h : a ≠ b) :
    Diverging s t := by
  obtain ⟨s', rfl⟩ := List.head?_eq_some_iff.mp hs
  obtain ⟨t', rfl⟩ := List.head?_eq_some_iff.mp ht
  exact ⟨[], a, s', b, t', h, rfl, rfl⟩

theorem ne (h : Diverging s t) : s ≠ t := by
  obtain ⟨p, a, s', b, t', hab, rfl, rfl⟩ := h
  intro heq
  exact hab (List.cons.inj (List.append_cancel_left heq)).1

theorem prepend (h : Diverging s t) (p : List α) : Diverging (p ++ s) (p ++ t) := by
  obtain ⟨q, a, s', b, t', hab, rfl, rfl⟩ := h
  exact ⟨p ++ q, a, s', b, t', hab, by simp, by simp⟩

theorem append (h : Diverging s t) (x y : List α) : Diverging (s ++ x) (t ++ y) := by
  obtain ⟨p, a, s', b, t', hab, rfl, rfl⟩ := h
  exact ⟨p, a, s' ++ x, b, t' ++ y, hab, by simp, by simp⟩

end Diverging

variable {f g : β → List α} {l : List β} (sep : List α)

/-- **Parts that part make wholes that part.** -/
theorem diverging_intercalate (h : ∀ x ∈ l, f x = g x ∨ Diverging (f x) (g x)) :
    (∀ x ∈ l, f x = g x) ∨
      Diverging (sep.intercalate (l.map f)) (sep.intercalate (l.map g)) := by
  induction l with
  | nil => exact Or.inl (by simp)
  | cons x l ih =>
      have hrest := ih fun y hy => h y (List.mem_cons_of_mem _ hy)
      rcases h x List.mem_cons_self with hx | hx
      · rcases hrest with hl | hl
        · exact Or.inl (List.forall_mem_cons.mpr ⟨hx, hl⟩)
        · cases l with
          | nil => exact absurd rfl hl.ne
          | cons y l =>
              have hwhole := (hl.prepend sep).prepend (g x)
              simp only [List.map_cons, List.intercalate_cons_cons, List.append_assoc, hx]
                at hwhole ⊢
              exact Or.inr hwhole
      · cases l with
        | nil => simpa using Or.inr hx
        | cons y l =>
            simp only [List.map_cons, List.intercalate_cons_cons, List.append_assoc]
            exact Or.inr (hx.append _ _)

theorem intercalate_map_eq_iff (h : ∀ x ∈ l, f x = g x ∨ Diverging (f x) (g x)) :
    sep.intercalate (l.map f) = sep.intercalate (l.map g) ↔ ∀ x ∈ l, f x = g x := by
  constructor
  · intro heq
    exact (diverging_intercalate sep h).resolve_right fun hdiv => hdiv.ne heq
  · intro heq
    rw [List.map_congr_left heq]
