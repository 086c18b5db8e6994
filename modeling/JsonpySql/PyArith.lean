/-
JsonpySql/PyArith.lean

Adding numbers, and dividing a sum by a count.

Integers are exact.  A result that is a float is the exact rational rounded to
the nearest float, to the even one where two are as near; beyond the largest
finite float an operation on floats is infinite, and one on integers raises.
-/
import JsonpySql.Planner

/-! ### Rounding -/

namespace FiniteFloat

/-- The least `k` with `num / den < 2^(k - 1021)`: the exponent of the nearest
floats is `k - 1074`. -/
@[irreducible] def exponentIndex (num den : ℕ) : Option ℕ :=
  (List.range 2046).find? fun k => num * 2 ^ 1074 < den * 2 ^ (53 + k)

/-- `num / den` rounded to the nearest integer, ties to even. -/
def roundDiv (num den : ℕ) : ℕ :=
  let q := num / den
  let r := 2 * (num % den)
  if r < den ∨ (r = den ∧ q % 2 = 0) then q else q + 1

/-- The float nearest to `(-1)^neg * num / den`, if it is finite. -/
def ofRatio (neg : Bool) (num den : ℕ) : Option FiniteFloat := do
  let k ← exponentIndex num den
  let m := roundDiv (num * 2 ^ 1074) (den * 2 ^ k)
  -- rounding up may reach the next power of two
  let (mant, exp) : ℕ × ℤ := if m = 2 ^ 53 then (2 ^ 52, k - 1073) else (m, k - 1074)
  if h : mant < 2 ^ 53 ∧ -1074 ≤ exp ∧ exp ≤ 971 ∧ (2 ^ 52 ≤ mant ∨ exp = -1074) then
    some ⟨neg, mant, exp, h.1, h.2.1, h.2.2.1, h.2.2.2⟩
  else none

/-- The exact value. -/
def toRat (x : FiniteFloat) : ℚ := scaledRat x.neg x.mant 2 x.exp

end FiniteFloat

namespace PyFloat

/-- A rational as the result of an operation on floats; `neg` is the sign of a
zero. -/
def ofRat (neg : Bool) (q : ℚ) : PyFloat :=
  let neg := if q = 0 then neg else q < 0
  (FiniteFloat.ofRatio neg q.num.natAbs q.den).elim (.inf neg) .finite

/-- `x + y`. -/
def add : PyFloat → PyFloat → PyFloat
  | .nan, _ | _, .nan => .nan
  | .inf s, .inf t => if s = t then .inf s else .nan
  | .inf s, _ | _, .inf s => .inf s
  | .finite x, .finite y => ofRat (x.neg && y.neg) (x.toRat + y.toRat)

/-- `x / n`, for a positive `n`. -/
def divNat (x : PyFloat) (n : ℕ) : PyFloat :=
  match x with
  | .finite x => ofRat x.neg (x.toRat / n)
  | x => x

end PyFloat

/-! ### Sums -/

namespace PyVal

open JsonpySql (PyErr)

/-- `float(n)`. -/
def floatOfInt (n : ℤ) : Except PyErr PyFloat :=
  (FiniteFloat.ofRatio (n < 0) n.natAbs 1).elim
    (.error (.overflowError "int too large to convert to float")) fun x => .ok (.finite x)

/-- `v + w`, of values a stored document can hold and a sum can reach: the left
side is a number. -/
def add (v w : PyVal) : Except PyErr PyVal :=
  match v.index?, w.index?, v, w with
  | some m, some n, _, _ => .ok (.int (m + n))
  | _, _, .float x, .float y => .ok (.float (x.add y))
  | _, some n, .float x, _ => (floatOfInt n).map fun y => .float (x.add y)
  | some m, _, _, .float y => (floatOfInt m).map fun x => .float (x.add y)
  | _, _, _, _ =>
      .error (.typeError ("unsupported operand type(s) for +: '" ++ v.typeName ++ "' and '" ++
        w.typeName ++ "'"))

/-- `sum(values)`. -/
def sum (values : List PyVal) : Except PyErr PyVal := values.foldlM add (.int 0)

/-- The quotient of two integers is a finite float. -/
def InFloatRange (n : ℤ) (count : ℕ) : Prop :=
  (FiniteFloat.ofRatio (n < 0) n.natAbs count).isSome

instance (n : ℤ) (count : ℕ) : Decidable (InFloatRange n count) :=
  inferInstanceAs (Decidable (_ = true))

/-- `v / count`, for a sum and a positive count. -/
def divCount (v : PyVal) (count : ℕ) : Except PyErr PyVal :=
  match v with
  | .int n =>
      (FiniteFloat.ofRatio (n < 0) n.natAbs count).elim
        (.error (.overflowError "integer division result too large for a float"))
        fun x => .ok (.float (.finite x))
  | .float x => .ok (.float (x.divNat count))
  | v =>
      .error (.typeError ("unsupported operand type(s) for /: '" ++ v.typeName ++ "' and 'int'"))

theorem add_int (m n : ℤ) : add (.int m) (.int n) = .ok (.int (m + n)) := rfl

theorem sum_int (ns : List ℤ) : sum (ns.map PyVal.int) = .ok (.int ns.sum) := by
  have hfold : ∀ (ns : List ℤ) (m : ℤ),
      (ns.map PyVal.int).foldlM add (.int m) = .ok (.int (m + ns.sum)) := by
    intro ns
    induction ns with
    | nil => exact fun m => by rw [List.sum_nil, Int.add_zero]; rfl
    | cons n ns ih =>
        intro m
        rw [List.map_cons, List.foldlM_cons, add_int, JsonpySql.ok_bind, ih, List.sum_cons,
          Int.add_assoc]
  rw [sum, hfold, Int.zero_add]

theorem exists_divCount_int {n : ℤ} {count : ℕ} (h : InFloatRange n count) :
    ∃ v : PyVal, divCount (.int n) count = .ok v := by
  obtain ⟨x, hx⟩ := Option.isSome_iff_exists.mp h
  exact ⟨.float (.finite x), by rw [divCount, hx, Option.elim_some]⟩

end PyVal

example : (PyVal.divCount (.int (10 ^ 400)) 2).toOption = none := by decide +kernel
