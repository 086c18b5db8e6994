/-
JsonpySql/PyFloat.lean

The interpreter's `float`: IEEE 754 binary64, and its `repr`.

A finite value is a sign, a significand and a binary exponent in canonical
form, the invariant being a field, so that every value has one representation.
`repr` prints the shortest decimal digit string that rounds to the value, the
closest one where several have that length, in fixed notation when the decimal
point falls within -4 < point <= 16 and in exponent notation otherwise.
-/
import Mathlib.Data.Nat.Digits.Defs

/-- A finite binary64 value: `(-1)^neg * mant * 2^exp`. -/
structure FiniteFloat where
  neg : Bool
  mant : ℕ
  exp : ℤ
  mant_lt : mant < 2 ^ 53
  exp_ge : -1074 ≤ exp
  exp_le : exp ≤ 971
  canonical : 2 ^ 52 ≤ mant ∨ exp = -1074
deriving DecidableEq

/-- The interpreter's floating-point numbers. -/
inductive PyFloat
  | finite (x : FiniteFloat)
  | inf (neg : Bool)
  | nan
deriving DecidableEq

namespace FiniteFloat

/-! ### The rounding interval

Everything is scaled by `den`: the value is `num / den`, and the decimals that
round to it lie between `low / den` and `high / den` (the ends included when
the significand is even). -/

/-- Four times the weight of the last bit, scaled by `den`. -/
def unit (x : FiniteFloat) : ℕ := 4 * 2 ^ x.exp.toNat

def den (x : FiniteFloat) : ℕ := 4 * 2 ^ (-x.exp).toNat

def num (x : FiniteFloat) : ℕ := x.mant * x.unit

def high (x : FiniteFloat) : ℕ := x.num + x.unit / 2

/-- The interval is narrower below a power of two. -/
def low (x : FiniteFloat) : ℕ :=
  if x.mant = 2 ^ 52 ∧ x.exp ≠ -1074 then x.num - x.unit / 4 else x.num - x.unit / 2

/-- `c * 10^k`, scaled by `den` and by `10^(-k)` for a negative `k`. -/
def scaled (x : FiniteFloat) (c : ℕ) (k : ℤ) : ℕ := c * x.den * 10 ^ k.toNat

/-- The decimal `c * 10^k` rounds to `x`. -/
def roundsTo (x : FiniteFloat) (c : ℕ) (k : ℤ) : Bool :=
  let v := x.scaled c k
  let lo := x.low * 10 ^ (-k).toNat
  let hi := x.high * 10 ^ (-k).toNat
  if x.mant % 2 = 0 then lo ≤ v && v ≤ hi else lo < v && v < hi

/-- The `p` with `10^(p-1) <= x < 10^p`, for a positive value. -/
def decimalExponent (x : FiniteFloat) : ℤ :=
  if x.den ≤ x.num then ((Nat.toDigits 10 (x.num / x.den)).length : ℤ)
  else -(((List.range 400).find? fun j => x.den ≤ x.num * 10 ^ (j + 1)).getD 0 : ℤ)

/-- The closer of the two `n`-digit neighbours of `x` that round to it. -/
def candidate (x : FiniteFloat) (n : ℕ) : Option (ℕ × ℤ) :=
  let k := x.decimalExponent - n
  let below := x.num * 10 ^ (-k).toNat / (x.den * 10 ^ k.toNat)
  let above := below + 1
  match x.roundsTo below k, x.roundsTo above k with
  | false, false => none
  | true, false => some (below, k)
  | false, true => some (above, k)
  -- both round to `x`: the closer one, or the even one where they are as close
  | true, true =>
      let target := 2 * x.num * 10 ^ (-k).toNat
      let middle := x.scaled (below + above) k
      if target < middle then some (below, k)
      else if middle < target then some (above, k)
      else if below % 2 = 0 then some (below, k) else some (above, k)

/-- The shortest digits of a positive value, and the place of its decimal
point: the value rounds from `0.digits * 10^point`. -/
def shortest (x : FiniteFloat) : List Char × ℤ :=
  match (List.range 17).findSome? fun n => x.candidate (n + 1) with
  | none => ([], 0)
  | some (c, k) =>
      -- a zero at the end is no digit of the shortest string
      let ds := Nat.toDigits 10 c
      ((ds.reverse.dropWhile (· = '0')).reverse, (ds.length : ℤ) + k)

/-- The digits with their decimal point. -/
def layout (ds : List Char) (point : ℤ) : String :=
  if point ≤ -4 ∨ 16 < point then
    let e := point - 1
    let sign := if e < 0 then "-" else "+"
    let digits := Nat.toDigits 10 e.natAbs
    let padded := if digits.length < 2 then '0' :: digits else digits
    let frac := if ds.tail.isEmpty then "" else "." ++ String.ofList ds.tail
    String.ofList (ds.take 1) ++ frac ++ "e" ++ sign ++ String.ofList padded
  else if point ≤ 0 then
    "0." ++ String.ofList (List.replicate (-point).toNat '0' ++ ds)
  else if point.toNat < ds.length then
    String.ofList (ds.take point.toNat) ++ "." ++ String.ofList (ds.drop point.toNat)
  else
    String.ofList (ds ++ List.replicate (point.toNat - ds.length) '0') ++ ".0"

end FiniteFloat

/-- `repr(x)`, which is also `str(x)`. -/
def PyFloat.repr : PyFloat → String
  | .nan => "nan"
  | .inf neg => if neg then "-inf" else "inf"
  | .finite x =>
      (if x.neg then "-" else "") ++
        if x.mant = 0 then "0.0" else FiniteFloat.layout x.shortest.1 x.shortest.2

/-- A float is false exactly when it is a zero. -/
def PyFloat.truthy : PyFloat → Bool
  | .finite x => x.mant ≠ 0
  | _ => true
