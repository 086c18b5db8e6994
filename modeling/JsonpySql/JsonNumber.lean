/-
JsonpySql/JsonNumber.lean

Numbers in JSON text.

`scanNumber` follows the scanner of the `json` module: an optional minus, an
integer part that starts with no further zero, a fraction when a digit follows
the point, an exponent when a digit follows the `e` and its sign.  What it
cannot use it leaves for its caller.  A number with neither fraction nor
exponent is an `int`, any other a `float`.

What `scanNumber` reads is what the parts of a number say, wherever it stands
(`scanNumber_append`), and the texts written for an `int` and for a finite
`float` are such parts (`NumberText.value_ofInt`, `exists_floatText`).
-/
import JsonpySql.FloatText
import JsonpySql.PyVal

namespace PyJson

/-- The parts of a number: without a point the fraction is empty, and of the
exponent stand its sign and its digits. -/
structure NumberText where
  neg : Bool
  int : List Char
  frac : List Char
  exp : Option (Bool × List Char)

namespace NumberText

def exponent (n : NumberText) : ℤ :=
  match n.exp with
  | none => 0
  | some (true, ds) => -Nat.ofDigitChars 10 ds 0
  | some (false, ds) => Nat.ofDigitChars 10 ds 0

def value (n : NumberText) : PyScalar :=
  if n.frac = [] ∧ n.exp = none then
    .int (if n.neg then -Nat.ofDigitChars 10 n.int 0 else Nat.ofDigitChars 10 n.int 0)
  else .float (PyFloat.nearest n.neg
    (FiniteFloat.pointed (n.int ++ n.frac) (n.int.length + n.exponent)))

/-- The number as `repr` prints it: an exponent always with its sign. -/
def text (n : NumberText) : List Char :=
  (if n.neg then ['-'] else []) ++ n.int ++ (if n.frac = [] then [] else '.' :: n.frac) ++
    match n.exp with
    | none => []
    | some (neg, ds) => 'e' :: (if neg then '-' else '+') :: ds

/-- What the scanner takes for one number. -/
structure WellFormed (n : NumberText) : Prop where
  int : n.int = ['0'] ∨ Leading n.int
  frac : ∀ c ∈ n.frac, c.isDigit = true
  exp : ∀ p ∈ n.exp, p.2 ≠ [] ∧ ∀ c ∈ p.2, c.isDigit = true

end NumberText

/-! ### The scanner -/

def scanInt : List Char → Option (List Char × List Char)
  | [] => none
  | c :: cs =>
      if c = '0' then some ([c], cs)
      else if c.isDigit then
        some (c :: cs.takeWhile Char.isDigit, cs.dropWhile Char.isDigit)
      else none

def scanFraction : List Char → List Char × List Char
  | '.' :: c :: cs =>
      if c.isDigit then (c :: cs.takeWhile Char.isDigit, cs.dropWhile Char.isDigit)
      else ([], '.' :: c :: cs)
  | cs => ([], cs)

def scanSign : List Char → Bool × List Char
  | '-' :: cs => (true, cs)
  | '+' :: cs => (false, cs)
  | cs => (false, cs)

/-- Without a digit the scanner goes back to before the `e`. -/
def scanExponent : List Char → Option (Bool × List Char) × List Char
  | [] => (none, [])
  | c :: cs =>
      if c = 'e' ∨ c = 'E' then
        let (neg, cs') := scanSign cs
        if cs'.takeWhile Char.isDigit = [] then (none, c :: cs)
        else (some (neg, cs'.takeWhile Char.isDigit), cs'.dropWhile Char.isDigit)
      else (none, c :: cs)

def scanMinus : List Char → Bool × List Char
  | '-' :: cs => (true, cs)
  | cs => (false, cs)

/-- `_match_number_unicode`: the number at the start of the text, and what
follows it. -/
def scanNumber (cs : List Char) : Option (NumberText × List Char) :=
  let (neg, cs₁) := scanMinus cs
  match scanInt cs₁ with
  | none => none
  | some (int, cs₂) =>
      let (frac, cs₃) := scanFraction cs₂
      let (exp, cs₄) := scanExponent cs₃
      some (⟨neg, int, frac, exp⟩, cs₄)

/-! ### Reading back -/

/-- The text ends or goes on with a character that is no part of a number. -/
def Delimited (rest : List Char) : Prop :=
  ∀ c ∈ rest.head?, c.isDigit = false ∧ c ≠ '.' ∧ c ≠ 'e' ∧ c ≠ 'E'

@[simp] theorem delimited_nil : Delimited [] := by simp [Delimited]

theorem takeWhile_digits {ds rest : List Char} (hd : ∀ c ∈ ds, c.isDigit = true)
    (hr : ∀ c ∈ rest.head?, c.isDigit = false) :
    (ds ++ rest).takeWhile Char.isDigit = ds ∧ (ds ++ rest).dropWhile Char.isDigit = rest := by
  have hrest : rest.takeWhile Char.isDigit = [] ∧ rest.dropWhile Char.isDigit = rest := by
    cases rest with
    | nil => simp
    | cons c cs => simp [hr c (by simp)]
  rw [List.takeWhile_append_of_pos hd, List.dropWhile_append_of_pos hd, hrest.1, hrest.2]
  simp

theorem scanInt_append {ds rest : List Char} (hd : ds = ['0'] ∨ Leading ds)
    (hr : ∀ c ∈ rest.head?, c.isDigit = false) : scanInt (ds ++ rest) = some (ds, rest) := by
  rcases hd with rfl | hd
  · rfl
  · cases ds with
    | nil => exact absurd rfl hd.ne_nil
    | cons c cs =>
        have hc : c ≠ '0' := by simpa using hd.head
        have hdig := hd.digits c (by simp)
        obtain ⟨h₁, h₂⟩ :=
          takeWhile_digits (fun d (h : d ∈ cs) => hd.digits d (by simp [h])) hr
        simp [scanInt, hc, hdig, h₁, h₂]

/-- The text of a fraction, with its point. -/
def fracText (ds : List Char) : List Char := if ds = [] then [] else '.' :: ds

theorem scanFraction_append {ds rest : List Char} (hd : ∀ c ∈ ds, c.isDigit = true)
    (hr : ∀ c ∈ rest.head?, c.isDigit = false ∧ c ≠ '.') :
    scanFraction (fracText ds ++ rest) = (ds, rest) := by
  cases ds with
  | nil =>
      cases rest with
      | nil => rfl
      | cons c cs =>
          have hc := (hr c (by simp)).2
          unfold scanFraction fracText
          split
          · simp_all
          · simp_all
  | cons c cs =>
      obtain ⟨h₁, h₂⟩ :=
        takeWhile_digits (fun d (h : d ∈ cs) => hd d (by simp [h])) fun d h => (hr d h).1
      simp [scanFraction, fracText, hd c (by simp), h₁, h₂]

/-- The text of an exponent, with its sign. -/
def expText : Option (Bool × List Char) → List Char
  | none => []
  | some (neg, ds) => 'e' :: (if neg then '-' else '+') :: ds

theorem scanExponent_append {exp : Option (Bool × List Char)} {rest : List Char}
    (he : ∀ p ∈ exp, p.2 ≠ [] ∧ ∀ c ∈ p.2, c.isDigit = true) (hr : Delimited rest) :
    scanExponent (expText exp ++ rest) = (exp, rest) := by
  cases exp with
  | none =>
      cases rest with
      | nil => rfl
      | cons c cs =>
          obtain ⟨-, -, h₁, h₂⟩ := hr c (by simp)
          simp [scanExponent, expText, h₁, h₂]
  | some p =>
      obtain ⟨neg, ds⟩ := p
      obtain ⟨hne, hd⟩ := he (neg, ds) rfl
      obtain ⟨h₁, h₂⟩ := takeWhile_digits hd fun c hc => (hr c hc).1
      cases neg <;> simp [scanExponent, expText, scanSign, h₁, h₂, hne]

theorem expText_head (exp : Option (Bool × List Char)) {rest : List Char} (hr : Delimited rest) :
    ∀ c ∈ (expText exp ++ rest).head?, c.isDigit = false ∧ c ≠ '.' := by
  cases exp with
  | none => exact fun c hc => ⟨(hr c hc).1, (hr c hc).2.1⟩
  | some p => simp [expText]

theorem fracText_head (frac : List Char) {rest : List Char}
    (hr : ∀ c ∈ rest.head?, c.isDigit = false) :
    ∀ c ∈ (fracText frac ++ rest).head?, c.isDigit = false := by
  cases frac with
  | nil => simpa [fracText] using hr
  | cons c cs => simp [fracText]

theorem scanMinus_append (neg : Bool) {int rest : List Char} (hi : int = ['0'] ∨ Leading int) :
    scanMinus ((if neg then ['-'] else []) ++ (int ++ rest)) = (neg, int ++ rest) := by
  cases neg with
  | true => rfl
  | false =>
      rcases hi with rfl | hi
      · rfl
      · cases int with
        | nil => exact absurd rfl hi.ne_nil
        | cons c cs =>
            have hc : c ≠ '-' := by
              rintro rfl
              exact absurd (hi.digits '-' (by simp)) (by decide)
            unfold scanMinus
            split <;> simp_all

theorem NumberText.text_eq (n : NumberText) (rest : List Char) :
    n.text ++ rest = (if n.neg then ['-'] else []) ++
      (n.int ++ (fracText n.frac ++ (expText n.exp ++ rest))) := by
  unfold NumberText.text fracText expText
  simp only [List.append_assoc]

/-- A number is scanned to its end and no further. -/
theorem scanNumber_append {n : NumberText} (hn : n.WellFormed) {rest : List Char}
    (hr : Delimited rest) : scanNumber (n.text ++ rest) = some (n, rest) := by
  have hexp := expText_head n.exp hr
  have hfrac := fracText_head n.frac fun c hc => (hexp c hc).1
  rw [n.text_eq rest]
  unfold scanNumber
  rw [scanMinus_append n.neg hn.int]
  dsimp only
  rw [scanInt_append hn.int hfrac]
  dsimp only
  rw [scanFraction_append hn.frac hexp]
  dsimp only
  rw [scanExponent_append hn.exp hr]

/-! ### Integers -/

/-- The text of `int.__repr__`. -/
def NumberText.ofInt (i : ℤ) : NumberText :=
  ⟨i < 0, Nat.toDigits 10 i.natAbs, [], none⟩

theorem NumberText.wellFormed_ofInt (i : ℤ) : (ofInt i).WellFormed where
  int := by
    rcases Nat.eq_zero_or_pos i.natAbs with h | h
    · left; simp [ofInt, h]
    · exact .inr (leading_toDigits h)
  frac := by simp [ofInt]
  exp := by simp [ofInt]

theorem NumberText.text_ofInt (i : ℤ) : (toString i).toList = (ofInt i).text := by
  cases i with
  | ofNat n =>
      have hs : toString (Int.ofNat n) = n.repr := rfl
      have hneg : ¬ Int.ofNat n < 0 := (Int.natCast_nonneg n).not_gt
      rw [hs, Nat.toList_repr]
      simp only [ofInt, text, hneg]
      simp
  | negSucc n =>
      have hs : toString (Int.negSucc n) = "-" ++ (n + 1).repr := rfl
      have hneg : Int.negSucc n < 0 := Int.negSucc_lt_zero n
      rw [hs, String.toList_append, Nat.toList_repr]
      simp only [ofInt, text, hneg]
      simp

theorem NumberText.value_ofInt (i : ℤ) : (ofInt i).value = .int i := by
  unfold NumberText.value ofInt
  simp only [and_self, if_true, Nat.ofDigitChars_ten_toDigits]
  congr 1
  by_cases h : i < 0
  · simp only [h, decide_true, if_true]
    omega
  · simp only [h, decide_false, Bool.false_eq_true, if_false]
    omega

/-! ### Floats -/

theorem ofDigitChars_zeros_append (z : ℕ) (ds : List Char) :
    Nat.ofDigitChars 10 (List.replicate z '0' ++ ds) 0 = Nat.ofDigitChars 10 ds 0 := by
  rw [Nat.ofDigitChars_append, Nat.ofDigitChars_replicate_zero, mul_zero]

theorem pointed_zeros_append (z : ℕ) (ds : List Char) (point : ℤ) :
    FiniteFloat.pointed (List.replicate z '0' ++ ds) point =
      FiniteFloat.pointed ds (point - z) := by
  unfold FiniteFloat.pointed
  rw [ofDigitChars_zeros_append, List.length_append, List.length_replicate]
  congr 2
  push_cast
  ring

theorem pointed_append_zeros (z : ℕ) (ds : List Char) (point : ℤ) :
    FiniteFloat.pointed (ds ++ List.replicate z '0') point = FiniteFloat.pointed ds point := by
  unfold FiniteFloat.pointed
  rw [Nat.ofDigitChars_append, Nat.ofDigitChars_replicate_zero, List.length_append,
    List.length_replicate, mul_comm (10 ^ z), Nat.cast_mul, Nat.cast_pow, mul_assoc,
    ← zpow_natCast, Nat.cast_ofNat, ← zpow_add₀ (by norm_num)]
  congr 2
  push_cast
  ring

theorem isDigit_of_mem_zeros {z : ℕ} {c : Char} (h : c ∈ List.replicate z '0') :
    c.isDigit = true := by
  rw [List.eq_of_mem_replicate h]
  rfl

/-- `n` is an unsigned `float` whose text is `s` and whose value is `q`. -/
structure NumberText.Lays (n : NumberText) (s : List Char) (q : ℚ) : Prop where
  wellFormed : n.WellFormed
  neg : n.neg = false
  float : ¬(n.frac = [] ∧ n.exp = none)
  text : s = n.text
  value : FiniteFloat.pointed (n.int ++ n.frac) (n.int.length + n.exponent) = q

theorem lays_exponent {ds : List Char} (hds : Leading ds) {e : ℤ} {es : List Char}
    (hne : es ≠ []) (hdig : ∀ c ∈ es, c.isDigit = true)
    (hval : Nat.ofDigitChars 10 es 0 = e.natAbs) :
    NumberText.Lays ⟨false, ds.take 1, ds.tail, some (decide (e < 0), es)⟩
      (ds.take 1 ++ fracText ds.tail ++ 'e' :: (if e < 0 then '-' else '+') :: es)
      (FiniteFloat.pointed ds (e + 1)) where
  wellFormed := by
    cases ds with
    | nil => exact absurd rfl hds.ne_nil
    | cons d ds =>
        refine ⟨.inr ⟨by simp, fun c hc => hds.digits c (by simp_all), hds.head⟩, ?_, ?_⟩
        · exact fun c hc => hds.digits c (by simp_all)
        · rintro p hp
          cases hp
          exact ⟨hne, hdig⟩
  neg := rfl
  float := by simp
  text := by simp [NumberText.text, fracText]
  value := by
    have hlen : (ds.take 1).length = 1 := by
      have := List.length_pos_iff.mpr hds.ne_nil
      rw [List.length_take]
      omega
    have htail : ds.take 1 ++ ds.tail = ds := by
      rw [← List.drop_one, List.take_append_drop]
    have hexp : NumberText.exponent ⟨false, ds.take 1, ds.tail, some (decide (e < 0), es)⟩ = e := by
      unfold NumberText.exponent
      by_cases h : e < 0
      · simp only [h, decide_true, hval]
        omega
      · simp only [h, decide_false, hval]
        omega
    rw [hexp]
    dsimp only
    rw [htail, hlen]
    congr 1
    push_cast
    ring

theorem lays_fraction {ds : List Char} (hds : Leading ds) (z : ℕ) :
    NumberText.Lays ⟨false, ['0'], List.replicate z '0' ++ ds, none⟩
      ('0' :: '.' :: (List.replicate z '0' ++ ds)) (FiniteFloat.pointed ds (-z)) where
  wellFormed := by
    refine ⟨.inl rfl, fun c hc => ?_, by simp⟩
    rcases List.mem_append.mp hc with h | h
    · exact isDigit_of_mem_zeros h
    · exact hds.digits c h
  neg := rfl
  float := by simp [hds.ne_nil]
  text := by simp [NumberText.text, hds.ne_nil]
  value := by
    have hz := pointed_zeros_append (1 + z) ds 1
    rw [List.replicate_add, List.append_assoc] at hz
    refine hz.trans ?_
    congr 1
    push_cast
    ring

theorem lays_within {ds : List Char} (hds : Leading ds) {p : ℕ} (hpos : 0 < p)
    (hp : p < ds.length) :
    NumberText.Lays ⟨false, ds.take p, ds.drop p, none⟩ (ds.take p ++ '.' :: ds.drop p)
      (FiniteFloat.pointed ds p) where
  wellFormed := by
    refine ⟨.inr ⟨?_, fun c hc => hds.digits c (List.mem_of_mem_take hc), ?_⟩,
      fun c hc => hds.digits c (List.mem_of_mem_drop hc), by simp⟩
    · simp [hds.ne_nil]
      omega
    · rw [List.head?_take, if_neg (by omega)]
      exact hds.head
  neg := rfl
  float := by
    have : ds.drop p ≠ [] := by simp; omega
    simp [this]
  text := by
    have : ds.drop p ≠ [] := by simp; omega
    simp [NumberText.text, this]
  value := by
    dsimp only [NumberText.exponent]
    rw [List.take_append_drop, List.length_take, Nat.min_eq_left hp.le, add_zero]

theorem lays_zeros {ds : List Char} (hds : Leading ds) (z : ℕ) :
    NumberText.Lays ⟨false, ds ++ List.replicate z '0', ['0'], none⟩
      (ds ++ List.replicate z '0' ++ ['.', '0'])
      (FiniteFloat.pointed ds (ds.length + z)) where
  wellFormed := by
    refine ⟨.inr ⟨?_, fun c hc => ?_, ?_⟩, by simp, by simp⟩
    · simp [hds.ne_nil]
    · rcases List.mem_append.mp hc with h | h
      · exact hds.digits c h
      · exact isDigit_of_mem_zeros h
    · rw [List.head?_append_of_ne_nil _ hds.ne_nil]
      exact hds.head
  neg := rfl
  float := by simp
  text := by simp [NumberText.text]
  value := by
    have hz := pointed_append_zeros (z + 1) ds (ds.length + z)
    rw [List.replicate_add, ← List.append_assoc] at hz
    refine Eq.trans ?_ hz
    congr 1
    simp [NumberText.exponent]

/-- The layout of a digit string is the text of a number that is no integer,
with its point where it belongs. -/
theorem exists_lays {ds : List Char} (hds : Leading ds) (point : ℤ) :
    ∃ n : NumberText, n.Lays (FiniteFloat.layout ds point).toList
      (FiniteFloat.pointed ds point) := by
  unfold FiniteFloat.layout
  by_cases h₁ : point ≤ -4 ∨ 16 < point
  · rw [if_pos h₁]
    dsimp only
    generalize hdigits : Nat.toDigits 10 (point - 1).natAbs = digits
    have hdig : ∀ c ∈ digits, c.isDigit = true := fun c hc =>
      Nat.isDigit_of_mem_toDigits (by norm_num) le_rfl (hdigits ▸ hc)
    have hval : Nat.ofDigitChars 10 digits 0 = (point - 1).natAbs := by
      rw [← hdigits, Nat.ofDigitChars_ten_toDigits]
    -- the digits of the exponent, two at least
    generalize hes : (if digits.length < 2 then '0' :: digits else digits) = es
    have hes' : es ≠ [] ∧ (∀ c ∈ es, c.isDigit = true) ∧
        Nat.ofDigitChars 10 es 0 = (point - 1).natAbs := by
      rw [← hes]
      split_ifs with h
      · refine ⟨by simp, ?_, ?_⟩
        · simpa using hdig
        · simpa [Nat.ofDigitChars_cons] using hval
      · exact ⟨by rintro rfl; simp at h, hdig, hval⟩
    have h := lays_exponent hds hes'.1 hes'.2.1 hes'.2.2
    rw [sub_add_cancel] at h
    refine ⟨⟨false, ds.take 1, ds.tail, some (decide (point - 1 < 0), es)⟩, ?_⟩
    convert h using 1
    unfold fracText
    simp only [List.isEmpty_iff]
    split_ifs <;> simp [String.toList_append]
  rw [if_neg h₁]
  by_cases h₂ : point ≤ 0
  · have h := lays_fraction hds (-point).toNat
    rw [show -((-point).toNat : ℤ) = point by omega] at h
    rw [if_pos h₂]
    exact ⟨_, by simpa [String.toList_append] using h⟩
  rw [if_neg h₂]
  by_cases h₃ : point.toNat < ds.length
  · have h := lays_within hds (by omega) h₃
    rw [show ((point.toNat : ℕ) : ℤ) = point by omega] at h
    rw [if_pos h₃]
    exact ⟨_, by simpa [String.toList_append] using h⟩
  · have h := lays_zeros hds (point.toNat - ds.length)
    rw [show (ds.length : ℤ) + ((point.toNat - ds.length : ℕ) : ℤ) = point by omega] at h
    rw [if_neg h₃]
    exact ⟨_, by simpa [String.toList_append] using h⟩

/-- The number that `repr` prints for a finite float. -/
theorem exists_floatText (x : FiniteFloat) :
    ∃ n : NumberText, n.WellFormed ∧ (PyFloat.repr (.finite x)).toList = n.text ∧
      n.value = .float (.finite x) := by
  by_cases hm : x.mant = 0
  · refine ⟨⟨x.neg, ['0'], ['0'], none⟩, ⟨.inl rfl, by simp, by simp⟩, ?_, ?_⟩
    · dsimp only [PyFloat.repr]
      rw [if_pos hm]
      cases x.neg <;> rfl
    · have hexp : x.exp = -1074 := x.canonical.resolve_left (by omega)
      have hparts := PyFloat.ofParts_finite x
      rw [hm, hexp] at hparts
      have hzero : FiniteFloat.pointed ['0', '0'] 1 = 0 := by
        simp [FiniteFloat.pointed, Nat.ofDigitChars]
      simp [NumberText.value, NumberText.exponent, hzero, PyFloat.nearest, hparts]
  · have hpos : 0 < x.mant := Nat.pos_of_ne_zero hm
    obtain ⟨c, k, hround, hlead, hval⟩ := FiniteFloat.shortest_spec hpos
    obtain ⟨n, hn⟩ := exists_lays hlead x.shortest.2
    refine ⟨{ n with neg := x.neg }, ⟨hn.wellFormed.int, hn.wellFormed.frac, hn.wellFormed.exp⟩,
      ?_, ?_⟩
    · have htext := hn.text
      dsimp only [PyFloat.repr]
      rw [if_neg hm, String.toList_append, htext]
      unfold NumberText.text
      rw [hn.neg]
      cases x.neg <;> simp
    · unfold NumberText.value
      rw [if_neg hn.float]
      dsimp only
      have hexp : NumberText.exponent { n with neg := x.neg } = n.exponent := rfl
      rw [hexp, hn.value, hval, FiniteFloat.nearest_of_roundsTo hpos hround]

end PyJson
