/-
JsonpySql/FloatText.lean

Reading a decimal number as a `float`, and why `repr` loses nothing.

`float(s)` takes a decimal to the nearest binary64 value, to the one with the
even significand where two are as near, and to an infinity beyond the range.
It gives a value back from every decimal that `FiniteFloat.roundsTo` says
rounds to it (`nearest_of_roundsTo`).  Seventeen digits always suffice
(`candidate_seventeen`), so that the search of `shortest` never comes back
empty-handed (`shortest_spec`).
-/
import Mathlib.Algebra.Order.Floor.Ring
import Mathlib.Data.Int.Log
import Mathlib.Data.List.DropRight
import Mathlib.Data.Nat.Cast.Field
import Mathlib.Data.Rat.Floor
import Mathlib.Tactic.FieldSimp
import Mathlib.Tactic.Linarith
import Mathlib.Tactic.NormNum
import Mathlib.Tactic.Positivity
import Mathlib.Tactic.Ring
import JsonpySql.PyFloat

/-! ### Rounding -/

/-- The nearest integer, the even one at a midpoint. -/
def roundHalfEven (q : ℚ) : ℕ :=
  let m := ⌊q⌋₊
  if q - m < 1 / 2 then m else if 1 / 2 < q - m then m + 1 else m + m % 2

theorem roundHalfEven_eq {q : ℚ} {m : ℕ} (hlo : (m : ℚ) - 1 / 2 ≤ q) (hhi : q ≤ m + 1 / 2)
    (hodd : m % 2 = 1 → (m : ℚ) - 1 / 2 < q ∧ q < m + 1 / 2) : roundHalfEven q = m := by
  have hfloor : ⌊q⌋₊ = m ∨ (⌊q⌋₊ + 1 = m ∧ q < m) := by
    rcases lt_or_ge q m with hq | hq
    · rcases m.eq_zero_or_pos with rfl | hm
      · exact .inl (Nat.floor_eq_zero.mpr (by push_cast at hhi; linarith))
      · obtain ⟨n, rfl⟩ := Nat.exists_eq_succ_of_ne_zero hm.ne'
        push_cast at hlo hq
        have hn : ⌊q⌋₊ = n := (Nat.floor_eq_iff (by linarith [Nat.cast_nonneg (α := ℚ) n])).mpr
          ⟨by linarith, by linarith⟩
        exact .inr ⟨by omega, by push_cast; linarith⟩
    · have h0 : (0 : ℚ) ≤ q := (Nat.cast_nonneg m).trans hq
      exact .inl ((Nat.floor_eq_iff h0).mpr ⟨hq, by linarith⟩)
  unfold roundHalfEven
  dsimp only
  rcases hfloor with h | ⟨h, hlt⟩
  · rw [h]
    split_ifs with h₁ h₂
    · rfl
    · linarith
    · -- a midpoint above `m`, which is even
      have heven : m % 2 ≠ 1 := fun ho => by linarith [(hodd ho).2]
      omega
  · have hcast : (m : ℚ) = ⌊q⌋₊ + 1 := by rw [← h]; push_cast; ring
    split_ifs with h₁ h₂
    · linarith
    · exact h
    · -- a midpoint below `m`, which is even
      have heven : m % 2 ≠ 1 := fun ho => by linarith [(hodd ho).1]
      omega

/-- The place of the last bit of the values around `q`. -/
def lastBit (q : ℚ) : ℤ := max (Int.log 2 q - 52) (-1074)

namespace PyFloat

/-- The value with this significand and exponent, or an infinity when the
exponent is too large. -/
def ofParts (neg : Bool) (mant : ℕ) (exp : ℤ) : PyFloat :=
  if h : (-1074 ≤ exp ∧ exp ≤ 971) ∧ mant < 2 ^ 53 ∧ (2 ^ 52 ≤ mant ∨ exp = -1074) then
    .finite ⟨neg, mant, exp, h.2.1, h.1.1, h.1.2, h.2.2⟩
  else .inf neg

@[simp] theorem ofParts_finite (x : FiniteFloat) : ofParts x.neg x.mant x.exp = .finite x :=
  dif_pos ⟨⟨x.exp_ge, x.exp_le⟩, x.mant_lt, x.canonical⟩

/-- `float(s)` of a decimal that is `(-1)^neg * q`. -/
def nearest (neg : Bool) (q : ℚ) : PyFloat :=
  if q = 0 then ofParts neg 0 (-1074)
  else
    let e := lastBit q
    let m := roundHalfEven (q / 2 ^ e)
    -- the significand may have been rounded up to the next power of two
    if m = 2 ^ 53 then ofParts neg (2 ^ 52) (e + 1) else ofParts neg m e

end PyFloat

theorem lastBit_eq_of_mem {q : ℚ} {e : ℤ} (he : -1074 ≤ e) (hlo : 2 ^ (e + 52) ≤ q)
    (hhi : q < 2 ^ (e + 53)) : lastBit q = e := by
  have hq : 0 < q := (zpow_pos (by norm_num) _).trans_le hlo
  have h₁ : e + 52 ≤ Int.log 2 q :=
    (Int.zpow_le_iff_le_log (by norm_num) hq).mp (by exact_mod_cast hlo)
  have h₂ : Int.log 2 q < e + 53 :=
    (Int.lt_zpow_iff_log_lt (by norm_num) hq).mp (by exact_mod_cast hhi)
  unfold lastBit
  omega

theorem lastBit_eq_of_lt {q : ℚ} (hq : 0 < q) (hhi : q < 2 ^ (-1074 + 53 : ℤ)) :
    lastBit q = -1074 := by
  have h₂ : Int.log 2 q < -1074 + 53 :=
    (Int.lt_zpow_iff_log_lt (by norm_num) hq).mp (by exact_mod_cast hhi)
  unfold lastBit
  omega

/-! ### The rounding interval -/

theorem zpow_eq_div_toNat (a : ℚ) (k : ℤ) : a ^ k = a ^ k.toNat / a ^ (-k).toNat := by
  rcases le_total 0 k with h | h
  · obtain ⟨n, rfl⟩ := Int.eq_ofNat_of_zero_le h
    simp
  · obtain ⟨n, hn⟩ := Int.eq_ofNat_of_zero_le (neg_nonneg.mpr h)
    obtain rfl : k = -n := by omega
    simp

namespace FiniteFloat

/-- The weight of the last bit. -/
def ulp (x : FiniteFloat) : ℚ := 2 ^ x.exp

/-- The magnitude. -/
def magnitude (x : FiniteFloat) : ℚ := x.mant * x.ulp

theorem ulp_pos (x : FiniteFloat) : 0 < x.ulp := zpow_pos (by norm_num) _

theorem den_pos (x : FiniteFloat) : 0 < x.den := by unfold den; positivity

theorem unit_eq (x : FiniteFloat) : (x.unit : ℚ) = x.ulp * x.den := by
  unfold unit den ulp
  rw [zpow_eq_div_toNat]
  push_cast
  field_simp

theorem num_eq (x : FiniteFloat) : (x.num : ℚ) = x.magnitude * x.den := by
  unfold num magnitude
  push_cast
  rw [unit_eq]
  ring

theorem unit_half (x : FiniteFloat) : ((x.unit / 2 : ℕ) : ℚ) = x.unit / 2 := by
  rw [Nat.cast_div ⟨2 * 2 ^ x.exp.toNat, by unfold unit; ring⟩ (by norm_num)]
  norm_num

theorem unit_quarter (x : FiniteFloat) : ((x.unit / 4 : ℕ) : ℚ) = x.unit / 4 := by
  rw [Nat.cast_div ⟨2 ^ x.exp.toNat, by unfold unit; ring⟩ (by norm_num)]
  norm_num

/-- The interval's reach below the value. -/
def reach (x : FiniteFloat) : ℚ :=
  if x.mant = 2 ^ 52 ∧ x.exp ≠ -1074 then x.ulp / 4 else x.ulp / 2

theorem high_eq (x : FiniteFloat) : (x.high : ℚ) = (x.magnitude + x.ulp / 2) * x.den := by
  unfold high
  rw [Nat.cast_add, unit_half, num_eq, unit_eq]
  ring

theorem low_eq {x : FiniteFloat} (hm : 0 < x.mant) :
    (x.low : ℚ) = (x.magnitude - x.reach) * x.den := by
  have hle : x.unit ≤ x.num := Nat.le_mul_of_pos_left _ hm
  unfold low reach
  split_ifs
  · rw [Nat.cast_sub (by omega), unit_quarter, num_eq, unit_eq]
    ring
  · rw [Nat.cast_sub (by omega), unit_half, num_eq, unit_eq]
    ring

/-- `a / den` against a decimal, both scaled to integers. -/
theorem scaled_cast (x : FiniteFloat) (c : ℕ) (k : ℤ) :
    (x.scaled c k : ℚ) = (c * 10 ^ k) * x.den * 10 ^ (-k).toNat := by
  unfold scaled
  rw [zpow_eq_div_toNat]
  push_cast
  field_simp

/-- What `roundsTo` decides, as an interval of rationals. -/
theorem roundsTo_iff {x : FiniteFloat} (hm : 0 < x.mant) (c : ℕ) (k : ℤ) :
    x.roundsTo c k = true ↔
      if x.mant % 2 = 0 then
        x.magnitude - x.reach ≤ c * 10 ^ k ∧ (c * 10 ^ k : ℚ) ≤ x.magnitude + x.ulp / 2
      else x.magnitude - x.reach < c * 10 ^ k ∧ (c * 10 ^ k : ℚ) < x.magnitude + x.ulp / 2 := by
  have hd : (0 : ℚ) < x.den := by exact_mod_cast x.den_pos
  have ht : (0 : ℚ) < 10 ^ (-k).toNat := by positivity
  have hlow : (((x.low * 10 ^ (-k).toNat : ℕ) : ℚ)) =
      (x.magnitude - x.reach) * x.den * 10 ^ (-k).toNat := by
    push_cast; rw [low_eq hm]
  have hhigh : (((x.high * 10 ^ (-k).toNat : ℕ) : ℚ)) =
      (x.magnitude + x.ulp / 2) * x.den * 10 ^ (-k).toNat := by
    push_cast; rw [high_eq]
  unfold roundsTo
  dsimp only
  split_ifs
  · rw [Bool.and_eq_true, decide_eq_true_eq, decide_eq_true_eq]
    rw [← Nat.cast_le (α := ℚ), ← Nat.cast_le (α := ℚ), hlow, hhigh, scaled_cast,
      mul_le_mul_iff_left₀ ht, mul_le_mul_iff_left₀ hd, mul_le_mul_iff_left₀ ht,
      mul_le_mul_iff_left₀ hd]
  · rw [Bool.and_eq_true, decide_eq_true_eq, decide_eq_true_eq]
    rw [← Nat.cast_lt (α := ℚ), ← Nat.cast_lt (α := ℚ), hlow, hhigh, scaled_cast,
      mul_lt_mul_iff_left₀ ht, mul_lt_mul_iff_left₀ hd, mul_lt_mul_iff_left₀ ht,
      mul_lt_mul_iff_left₀ hd]

theorem reach_le (x : FiniteFloat) : x.reach ≤ x.ulp / 2 := by
  have := x.ulp_pos
  unfold reach
  split_ifs <;> linarith

/-- A decimal in the closed interval is positive. -/
theorem reach_lt_magnitude {x : FiniteFloat} (hm : 0 < x.mant) : x.reach < x.magnitude := by
  have h₁ : (1 : ℚ) ≤ x.mant := by exact_mod_cast hm
  have hu := x.ulp_pos
  calc x.reach ≤ x.ulp / 2 := x.reach_le
    _ < 1 * x.ulp := by linarith
    _ ≤ x.magnitude := mul_le_mul_of_nonneg_right h₁ hu.le

theorem ulp_eq_mul (x : FiniteFloat) (n : ℤ) : (2 : ℚ) ^ (x.exp + n) = 2 ^ n * x.ulp := by
  rw [zpow_add₀ (by norm_num), mul_comm]
  rfl

/-- The decimals that round to a value are read as the value. -/
theorem nearest_of_roundsTo {x : FiniteFloat} (hm : 0 < x.mant) {c : ℕ} {k : ℤ}
    (h : x.roundsTo c k = true) : PyFloat.nearest x.neg (c * 10 ^ k) = .finite x := by
  have hu := x.ulp_pos
  have hreach := x.reach_le
  have hmag : x.magnitude = x.mant * x.ulp := rfl
  have hlt : (x.mant : ℚ) + 1 ≤ 2 ^ 53 := by exact_mod_cast x.mant_lt
  have hedges := (roundsTo_iff hm c k).mp h
  generalize (c * 10 ^ k : ℚ) = q at hedges
  have hlo : x.magnitude - x.reach ≤ q := by split_ifs at hedges <;> linarith [hedges.1]
  have hhi : q ≤ x.magnitude + x.ulp / 2 := by split_ifs at hedges <;> linarith [hedges.2]
  have hq : 0 < q := by linarith [reach_lt_magnitude hm]
  have hbelow : q < 2 ^ (x.exp + 53) := by
    rw [ulp_eq_mul]
    norm_num at hlt ⊢
    nlinarith
  unfold PyFloat.nearest
  rw [if_neg hq.ne']
  dsimp only
  by_cases hcase : x.exp = -1074 ∨ (2 : ℚ) ^ (x.exp + 52) ≤ q
  · -- the last bit of the decimal is the last bit of the value
    have hlast : lastBit q = x.exp := by
      rcases hcase with he | hle
      · rw [he] at hbelow ⊢
        exact lastBit_eq_of_lt hq hbelow
      · exact lastBit_eq_of_mem x.exp_ge hle hbelow
    have hround : roundHalfEven (q / x.ulp) = x.mant := by
      refine roundHalfEven_eq ?_ ?_ fun hodd => ?_
      · rw [le_div_iff₀ hu]
        linarith
      · rw [div_le_iff₀ hu]
        linarith
      · rw [if_neg (by omega)] at hedges
        rw [lt_div_iff₀ hu, div_lt_iff₀ hu]
        constructor <;> linarith [hedges.1, hedges.2]
    rw [hlast, show (2 : ℚ) ^ x.exp = x.ulp from rfl, hround, if_neg x.mant_lt.ne,
      PyFloat.ofParts_finite]
  · -- just below a power of two: one bit finer, and rounded up to the power
    push Not at hcase
    obtain ⟨he, hlt'⟩ := hcase
    have hexp := x.exp_ge
    rw [ulp_eq_mul] at hlt'
    have hpow : x.mant = 2 ^ 52 := by
      have hge := x.canonical.resolve_right he
      by_contra hne
      have h₁ : (2 : ℚ) ^ 52 + 1 ≤ x.mant := by exact_mod_cast (by omega : 2 ^ 52 + 1 ≤ x.mant)
      have h₂ : ((2 : ℚ) ^ 52 + 1) * x.ulp ≤ x.magnitude := mul_le_mul_of_nonneg_right h₁ hu.le
      norm_num at h₂ hlt'
      linarith
    have hmant : (x.mant : ℚ) = 2 ^ 52 := by exact_mod_cast hpow
    have hreach' : x.reach = x.ulp / 4 := if_pos ⟨hpow, he⟩
    have hhalf : (2 : ℚ) ^ (x.exp - 1) = x.ulp / 2 := by
      rw [sub_eq_add_neg, ulp_eq_mul]
      norm_num
      ring
    have hlast : lastBit q = x.exp - 1 := by
      refine lastBit_eq_of_mem (by omega) ?_ ?_
      · rw [show x.exp - 1 + 52 = x.exp + 51 by ring, ulp_eq_mul]
        norm_num at hmant ⊢
        rw [hmag, hmant, hreach'] at hlo
        linarith
      · rw [show x.exp - 1 + 53 = x.exp + 52 by ring, ulp_eq_mul]
        exact hlt'
    have hround : roundHalfEven (q / (x.ulp / 2)) = 2 ^ 53 := by
      norm_num at hmant hlt'
      refine roundHalfEven_eq ?_ ?_ fun hodd => absurd hodd (by norm_num)
      · rw [le_div_iff₀ (by linarith)]
        rw [hmag, hmant, hreach'] at hlo
        norm_num
        linarith
      · rw [div_le_iff₀ (by linarith)]
        norm_num
        linarith
    have hparts := PyFloat.ofParts_finite x
    rw [hpow] at hparts
    rw [hlast, hhalf, hround, if_pos rfl, sub_add_cancel, hparts]

/-! ### Seventeen digits -/

theorem magnitude_pos {x : FiniteFloat} (hm : 0 < x.mant) : 0 < x.magnitude :=
  mul_pos (by exact_mod_cast hm) x.ulp_pos

/-- A power of ten that lifts every value to one. -/
theorem one_le_magnitude_mul {x : FiniteFloat} (hm : 0 < x.mant) :
    1 ≤ x.magnitude * 10 ^ (54 * 6) := by
  have h₁ : (1 : ℚ) ≤ x.mant := by exact_mod_cast hm
  have hpow : ((2 : ℚ) ^ (179 * 6)) ≤ 10 ^ (54 * 6) := by
    rw [pow_mul, pow_mul]
    exact pow_le_pow_left₀ (by positivity) (by norm_num) 6
  have hulp : (2 : ℚ) ^ (-((179 * 6 : ℕ) : ℤ)) ≤ x.ulp :=
    zpow_le_zpow_right₀ (by norm_num) x.exp_ge
  calc (1 : ℚ) = 2 ^ (-((179 * 6 : ℕ) : ℤ)) * 2 ^ (179 * 6) := by
        rw [zpow_neg, zpow_natCast, inv_mul_cancel₀ (by positivity)]
    _ ≤ x.ulp * 10 ^ (54 * 6) := mul_le_mul hulp hpow (by positivity) x.ulp_pos.le
    _ ≤ x.magnitude * 10 ^ (54 * 6) :=
        mul_le_mul_of_nonneg_right (le_mul_of_one_le_left x.ulp_pos.le h₁) (by positivity)

/-- The value lies in the decade that `decimalExponent` names. -/
theorem decimalExponent_spec {x : FiniteFloat} (hm : 0 < x.mant) :
    (10 : ℚ) ^ (x.decimalExponent - 1) ≤ x.magnitude ∧
      x.magnitude < 10 ^ x.decimalExponent := by
  have hd : (0 : ℚ) < x.den := by exact_mod_cast x.den_pos
  unfold decimalExponent
  split_ifs with hle
  · -- as many digits as the integer part has
    set n := x.num / x.den with hn
    set l := (Nat.toDigits 10 n).length with hl
    have hpos : 0 < l := Nat.length_toDigits_pos
    have hlt : n < 10 ^ l := (Nat.length_toDigits_le_iff (by norm_num) hpos).mp le_rfl
    have hge : 10 ^ (l - 1) ≤ n := by
      rcases Nat.lt_or_ge 1 l with h1 | h1
      · by_contra hcon
        have := (Nat.length_toDigits_le_iff (b := 10) (by norm_num) (by omega)).mpr
          (not_le.mp hcon)
        omega
      · rw [show l - 1 = 0 by omega, pow_zero]
        exact Nat.div_pos hle x.den_pos
    have h₁ : 10 ^ (l - 1) * x.den ≤ x.num :=
      (Nat.mul_le_mul_right _ hge).trans (Nat.div_mul_le_self _ _)
    have h₂ : x.num < 10 ^ l * x.den := (Nat.div_lt_iff_lt_mul x.den_pos).mp hlt
    have h₁' : (10 : ℚ) ^ (l - 1) * x.den ≤ x.magnitude * x.den := by
      rw [← num_eq]; exact_mod_cast h₁
    have h₂' : x.magnitude * x.den < (10 : ℚ) ^ l * x.den := by
      rw [← num_eq]; exact_mod_cast h₂
    refine ⟨?_, ?_⟩
    · rw [show (l : ℤ) - 1 = ((l - 1 : ℕ) : ℤ) by omega, zpow_natCast]
      exact le_of_mul_le_mul_right h₁' hd
    · rw [zpow_natCast]
      exact lt_of_mul_lt_mul_right h₂' hd.le
  · -- the first power of ten that lifts the value to one
    rw [not_le] at hle
    have hex : ∃ j, (List.range 400).find? (fun j => x.den ≤ x.num * 10 ^ (j + 1)) = some j := by
      rw [← Option.isSome_iff_exists, Option.isSome_iff_ne_none, ne_eq, List.find?_range_eq_none]
      intro hnone
      have h₂ : (x.den : ℚ) ≤ x.num * 10 ^ (54 * 6) := by
        rw [num_eq, mul_right_comm]
        exact le_mul_of_one_le_left hd.le (one_le_magnitude_mul hm)
      have h₃ : ∀ n, n = 54 * 6 → x.den ≤ x.num * 10 ^ n := by
        rintro n rfl
        exact_mod_cast h₂
      have h₄ := hnone 323 (by norm_num)
      rw [decide_eq_true (h₃ (323 + 1) rfl)] at h₄
      exact absurd h₄ (by decide)
    obtain ⟨j, hj⟩ := hex
    rw [hj, Option.getD_some]
    obtain ⟨hp, -, hmin⟩ := List.find?_range_eq_some.mp hj
    have hlow : x.den ≤ x.num * 10 ^ (j + 1) := by simpa using hp
    have hhigh : x.num * 10 ^ j < x.den := by
      rcases j with _ | j
      · simpa using hle
      · simpa using hmin j (by omega)
    have hlow' : x.den ≤ x.magnitude * 10 ^ (j + 1) * x.den := by
      rw [mul_right_comm, ← num_eq]; exact_mod_cast hlow
    have hhigh' : x.magnitude * 10 ^ j * x.den < 1 * x.den := by
      rw [mul_right_comm, ← num_eq, one_mul]; exact_mod_cast hhigh
    refine ⟨?_, ?_⟩
    · rw [show -(j : ℤ) - 1 = -((j + 1 : ℕ) : ℤ) by push_cast; ring, zpow_neg, zpow_natCast,
        inv_le_iff_one_le_mul₀ (by positivity)]
      exact le_of_mul_le_mul_right (by rwa [one_mul]) hd
    · rw [zpow_neg, zpow_natCast, lt_inv_comm₀ (magnitude_pos hm) (by positivity),
        ← one_div, lt_div_iff₀ (magnitude_pos hm), mul_comm]
      exact lt_of_mul_lt_mul_right hhigh' hd.le

/-- A candidate rounds to the value. -/
theorem roundsTo_of_candidate {x : FiniteFloat} {n : ℕ} {c : ℕ} {k : ℤ}
    (h : x.candidate n = some (c, k)) : x.roundsTo c k = true := by
  unfold candidate at h
  dsimp only at h
  split at h
  · cases h
  · cases h; assumption
  · cases h; assumption
  · split_ifs at h <;> (cases h; assumption)

/-- The search succeeds where one of the two neighbours rounds to the value. -/
theorem candidate_isSome {x : FiniteFloat} {n b : ℕ} {k : ℤ} (hk : x.decimalExponent - n = k)
    (hb : x.num * 10 ^ (-k).toNat / (x.den * 10 ^ k.toNat) = b)
    (h : x.roundsTo b k = true ∨ x.roundsTo (b + 1) k = true) : (x.candidate n).isSome = true := by
  unfold candidate
  dsimp only
  rw [hk, hb]
  cases h₁ : x.roundsTo b k <;> cases h₂ : x.roundsTo (b + 1) k
  · simp [h₁, h₂] at h
  · rfl
  · rfl
  · dsimp only
    split_ifs <;> rfl

/-- Of two neighbouring decimals of seventeen digits the nearer one rounds to
the value, since they are closer than the interval is wide. -/
theorem candidate_seventeen {x : FiniteFloat} (hm : 0 < x.mant) :
    (x.candidate 17).isSome = true := by
  have hu := x.ulp_pos
  have hd : (0 : ℚ) < x.den := by exact_mod_cast x.den_pos
  set k := x.decimalExponent - (17 : ℕ) with hk
  set b := x.num * 10 ^ (-k).toNat / (x.den * 10 ^ k.toNat) with hb
  have hten : (0 : ℚ) < 10 ^ k := zpow_pos (by norm_num) _
  -- the value lies between the two neighbours
  have hmid : (b : ℚ) * 10 ^ k ≤ x.magnitude ∧ x.magnitude < ((b + 1 : ℕ) : ℚ) * 10 ^ k := by
    have hpos : 0 < x.den * 10 ^ k.toNat := Nat.mul_pos x.den_pos (by positivity)
    have h₁ : b * (x.den * 10 ^ k.toNat) ≤ x.num * 10 ^ (-k).toNat := Nat.div_mul_le_self _ _
    have h₂ : x.num * 10 ^ (-k).toNat < (b + 1) * (x.den * 10 ^ k.toNat) :=
      (Nat.div_lt_iff_lt_mul hpos).mp (Nat.lt_succ_self _)
    rw [← Nat.cast_le (α := ℚ)] at h₁
    rw [← Nat.cast_lt (α := ℚ)] at h₂
    push_cast [num_eq] at h₁ h₂
    rw [zpow_eq_div_toNat, ← mul_div_assoc, ← mul_div_assoc, div_le_iff₀ (by positivity),
      lt_div_iff₀ (by positivity)]
    push_cast
    exact ⟨le_of_mul_le_mul_right (by linarith) hd, lt_of_mul_lt_mul_right (by linarith) hd.le⟩
  -- and they are close
  have hclose : (10 : ℚ) ^ k / 2 < x.reach := by
    have h₁ := (decimalExponent_spec hm).1
    rw [show x.decimalExponent - 1 = 16 + k by omega, zpow_add₀ (by norm_num)] at h₁
    have hmag : x.magnitude = x.mant * x.ulp := rfl
    unfold reach
    split_ifs with hp
    · have hmant : (x.mant : ℚ) = 2 ^ 52 := by exact_mod_cast hp.1
      rw [hmag, hmant] at h₁
      norm_num at h₁
      linarith
    · have hlt : (x.mant : ℚ) ≤ 2 ^ 53 := by exact_mod_cast x.mant_lt.le
      have := mul_le_mul_of_nonneg_right hlt hu.le
      norm_num at h₁ this
      linarith
  have hreach := x.reach_le
  refine candidate_isSome hk.symm hb.symm ?_
  rw [roundsTo_iff hm, roundsTo_iff hm]
  obtain ⟨hlo, hhi⟩ := hmid
  rcases le_or_gt (x.magnitude - b * 10 ^ k) (10 ^ k / 2) with h | h
  · left
    split_ifs <;> constructor <;> linarith
  · right
    push_cast at hhi ⊢
    split_ifs <;> constructor <;> linarith

end FiniteFloat

/-! ### Digit strings -/

/-- A nonempty string of digits that starts with no zero. -/
structure Leading (ds : List Char) : Prop where
  ne_nil : ds ≠ []
  digits : ∀ c ∈ ds, c.isDigit = true
  head : ds.head? ≠ some '0'

theorem digitChar_ne_zero : ∀ d < 10, 0 < d → d.digitChar ≠ '0' := by decide

/-- Decimal digits start with no zero, unless the number is zero. -/
theorem leading_toDigits {n : ℕ} (h : 0 < n) : Leading (Nat.toDigits 10 n) := by
  refine ⟨Nat.toDigits_ne_nil, fun c hc => Nat.isDigit_of_mem_toDigits (by norm_num) le_rfl hc, ?_⟩
  induction n using Nat.strong_induction_on with
  | _ n ih =>
    rcases Nat.lt_or_ge n 10 with hn | hn
    · rw [Nat.toDigits_of_lt_base hn]
      simpa using digitChar_ne_zero n hn h
    · rw [Nat.toDigits_of_base_le (by norm_num) hn,
        List.head?_append_of_ne_nil _ Nat.toDigits_ne_nil]
      exact ih (n / 10) (by omega) (by omega)

/-- Dropping the zeros at the end divides by a power of ten. -/
theorem ofDigitChars_rdropWhile (ds : List Char) :
    ∃ z, ds = ds.rdropWhile (· = '0') ++ List.replicate z '0' := by
  refine ⟨(ds.rtakeWhile (· = '0')).length, ?_⟩
  have hz : ds.rtakeWhile (· = '0') =
      List.replicate (ds.rtakeWhile (· = '0')).length '0' := by
    rw [List.eq_replicate_iff]
    exact ⟨rfl, fun c hc => by simpa using List.mem_rtakeWhile_imp hc⟩
  rw [← hz, List.rdropWhile_append_rtakeWhile]

namespace FiniteFloat

/-- The value of a digit string with its decimal point at `point`. -/
def pointed (ds : List Char) (point : ℤ) : ℚ :=
  Nat.ofDigitChars 10 ds 0 * 10 ^ (point - ds.length)

/-- The digits that `repr` prints make a decimal that rounds to the value. -/
theorem shortest_spec {x : FiniteFloat} (hm : 0 < x.mant) :
    ∃ c k, x.roundsTo c k = true ∧ Leading x.shortest.1 ∧
      pointed x.shortest.1 x.shortest.2 = c * 10 ^ k := by
  have hsome : ((List.range 17).findSome? fun n => x.candidate (n + 1)).isSome := by
    rw [Option.isSome_iff_ne_none, ne_eq, List.findSome?_eq_none_iff]
    intro hnone
    have := candidate_seventeen hm
    rw [hnone 16 (by simp)] at this
    cases this
  obtain ⟨⟨c, k⟩, hfind⟩ := Option.isSome_iff_exists.mp hsome
  obtain ⟨n, -, hc⟩ := List.exists_of_findSome?_eq_some hfind
  have hround := roundsTo_of_candidate hc
  have hpos : 0 < c := by
    rcases c.eq_zero_or_pos with rfl | h
    · have hedge := (roundsTo_iff hm 0 k).mp hround
      have := reach_lt_magnitude hm
      split_ifs at hedge <;> norm_num at hedge <;> linarith [hedge.1]
    · exact h
  obtain ⟨z, hz⟩ := ofDigitChars_rdropWhile (Nat.toDigits 10 c)
  have hlead := leading_toDigits hpos
  set ds := (Nat.toDigits 10 c).rdropWhile (· = '0') with hds
  have hshort : x.shortest = (ds, ((Nat.toDigits 10 c).length : ℤ) + k) := by
    unfold shortest
    rw [hfind]
    rfl
  have hval : Nat.ofDigitChars 10 ds 0 * 10 ^ z = c := by
    calc Nat.ofDigitChars 10 ds 0 * 10 ^ z
        = Nat.ofDigitChars 10 (ds ++ List.replicate z '0') 0 := by
          rw [Nat.ofDigitChars_append, Nat.ofDigitChars_replicate_zero, mul_comm]
      _ = c := by rw [← hz, Nat.ofDigitChars_ten_toDigits]
  have hne : ds ≠ [] := by
    intro h0
    rw [h0, Nat.ofDigitChars_nil, zero_mul] at hval
    omega
  refine ⟨c, k, hround, ?_, ?_⟩
  · rw [hshort]
    refine ⟨hne, fun d hd => hlead.digits d ?_, ?_⟩
    · rw [hz]
      exact List.mem_append_left _ hd
    · have := hlead.head
      rwa [hz, List.head?_append_of_ne_nil _ hne] at this
  · rw [hshort]
    have hlen : ((Nat.toDigits 10 c).length : ℤ) = ds.length + z := by
      rw [hz]
      simp
    unfold pointed
    rw [hlen, show (ds.length : ℤ) + z + k - ds.length = z + k by ring,
      zpow_add₀ (by norm_num), zpow_natCast, ← mul_assoc]
    congr 1
    exact_mod_cast hval

end FiniteFloat
