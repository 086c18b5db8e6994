/-
JsonpySql/JsonScan.lean

Which texts the scanner of the `json` module can take at all.

A small automaton follows the brackets and the quotes of a text: the depth of
brackets it is in, whether it is inside a string, whether a backslash comes
next.  Whatever the scanner takes is balanced: it leads the automaton from any
depth back to that depth, and never below (`takes_scanOnce`).  This is
enough to tell the two kinds of damage apart that a file of lines can come to:

* an object that breaks off never parses, and neither does it with another
  object after it (`loads_broken`);
* two whole objects on one line never parse (`loads_dumps_append`).

The argument for an object that breaks off inside a string: what follows is
then read with inside and outside exchanged, and that reading never gets back
outside (`Flip`).
-/
import JsonpySql.JsonRoundTrip

namespace PyJson

/-! ### The automaton -/

/-- Where a text stands. -/
inductive Place
  | out (depth : ℤ)
  | str (depth : ℤ)
  | esc (depth : ℤ)
  | dead
deriving DecidableEq

namespace Place

def step : Place → Char → Place
  | out d, c =>
      if c = '\x22' then str d
      else if c = '\\' then dead
      else if c = '\x7b' ∨ c = '[' then out (d + 1)
      else if c = '\x7d' ∨ c = ']' then out (d - 1)
      else out d
  | str d, c => if c = '\x22' then out d else if c = '\\' then esc d else str d
  | esc d, _ => str d
  | dead, _ => dead

def run (p : Place) (cs : List Char) : Place := cs.foldl step p

@[simp] theorem run_nil (p : Place) : p.run [] = p := rfl

@[simp] theorem run_cons (p : Place) (c : Char) (cs : List Char) :
    p.run (c :: cs) = (p.step c).run cs := rfl

theorem run_append (p : Place) (cs ds : List Char) : p.run (cs ++ ds) = (p.run cs).run ds :=
  List.foldl_append

@[simp] theorem run_dead (cs : List Char) : dead.run cs = dead := by
  induction cs with
  | nil => rfl
  | cons c cs ih => exact ih

end Place

open Place

/-! ### Balanced texts -/

/-- The start of a concatenation ends in one of its parts. -/
theorem prefix_append_cases {α : Type*} {p l l' : List α} (h : p <+: l ++ l') :
    p <+: l ∨ ∃ t, p = l ++ t ∧ t <+: l' := by
  rcases List.prefix_or_prefix_of_prefix h (List.prefix_append l l') with h₁ | ⟨t, rfl⟩
  · exact .inl h₁
  · exact .inr ⟨t, rfl, (List.prefix_append_right_inj l).mp h⟩

/-- From every depth the text leads back to it, and never below. -/
def Balanced (cs : List Char) : Prop :=
  ∀ d, (out d).run cs = out d ∧ ∀ p, p <+: cs → ∀ d', (out d).run p = out d' → d ≤ d'

theorem Balanced.run {cs : List Char} (h : Balanced cs) (d : ℤ) : (out d).run cs = out d :=
  (h d).1

theorem Balanced.append {cs ds : List Char} (hc : Balanced cs) (hd : Balanced ds) :
    Balanced (cs ++ ds) := by
  refine fun d => ⟨by rw [run_append, hc.run, hd.run], fun p hp d' h => ?_⟩
  rcases prefix_append_cases hp with h₁ | ⟨t, rfl, ht⟩
  · exact (hc d).2 p h₁ d' h
  · rw [run_append, hc.run] at h
    exact (hd d).2 t ht d' h

/-- Neither a quote nor a backslash nor a bracket. -/
def Neutral (c : Char) : Prop :=
  c ≠ '\x22' ∧ c ≠ '\\' ∧ c ≠ '\x7b' ∧ c ≠ '[' ∧ c ≠ '\x7d' ∧ c ≠ ']'

instance (c : Char) : Decidable (Neutral c) := inferInstanceAs (Decidable (_ ∧ _))

theorem Neutral.step_out {c : Char} (h : Neutral c) (d : ℤ) : (out d).step c = out d := by
  obtain ⟨h₁, h₂, h₃, h₄, h₅, h₆⟩ := h
  simp [Place.step, h₁, h₂, h₃, h₄, h₅, h₆]

theorem run_neutral {cs : List Char} (h : ∀ c ∈ cs, Neutral c) (d : ℤ) :
    (out d).run cs = out d := by
  induction cs with
  | nil => rfl
  | cons c cs ih =>
      rw [run_cons, (h c (by simp)).step_out]
      exact ih fun c' hc' => h c' (by simp [hc'])

theorem balanced_of_neutral {cs : List Char} (h : ∀ c ∈ cs, Neutral c) : Balanced cs := by
  refine fun d => ⟨run_neutral h d, fun p hp d' hd => ?_⟩
  rw [run_neutral fun c hc => h c (hp.subset hc)] at hd
  cases hd
  exact le_rfl

/-- A text in brackets is one level up until its last character. -/
theorem Balanced.bracket {cs : List Char} (h : Balanced cs) {o c : Char}
    (hb : (o = '\x7b' ∧ c = '\x7d') ∨ (o = '[' ∧ c = ']')) : Balanced (o :: (cs ++ [c])) := by
  have hopen : ∀ d, (out d).step o = out (d + 1) := by
    rcases hb with ⟨rfl, rfl⟩ | ⟨rfl, rfl⟩ <;> simp [Place.step]
  have hclose : ∀ d, (out d).step c = out (d - 1) := by
    rcases hb with ⟨rfl, rfl⟩ | ⟨rfl, rfl⟩ <;> simp [Place.step]
  refine fun d => ⟨?_, fun p hp d' hd => ?_⟩
  · rw [run_cons, hopen, run_append, h.run, run_cons, hclose, run_nil]
    congr 1
    ring
  · cases p with
    | nil => cases hd; exact le_rfl
    | cons a p =>
        obtain ⟨rfl, hp'⟩ := List.cons_prefix_cons.mp hp
        rw [run_cons, hopen] at hd
        rcases prefix_append_cases hp' with h₁ | ⟨t, rfl, ht⟩
        · have := (h (d + 1)).2 p h₁ d' hd
          omega
        · rw [run_append, h.run] at hd
          rcases List.prefix_cons_iff.mp ht with rfl | ⟨t', rfl, ht'⟩
          · cases hd; omega
          · rw [List.prefix_nil] at ht'
            subst ht'
            rw [run_cons, hclose, run_nil] at hd
            cases hd; omega

/-! ### What the scanner takes -/

/-- The scanner has taken a balanced text off the front. -/
def Takes (cs rest : List Char) : Prop := ∃ used, cs = used ++ rest ∧ Balanced used

theorem Takes.trans {cs ds rest : List Char} (h : Takes cs ds) (h' : Takes ds rest) :
    Takes cs rest := by
  obtain ⟨used, rfl, hu⟩ := h
  obtain ⟨used', rfl, hu'⟩ := h'
  exact ⟨used ++ used', (List.append_assoc _ _ _).symm, hu.append hu'⟩

theorem takes_of_neutral {used : List Char} (h : ∀ c ∈ used, Neutral c) (rest : List Char) :
    Takes (used ++ rest) rest :=
  ⟨used, rfl, balanced_of_neutral h⟩

theorem takes_cons {c : Char} (h : Neutral c) (rest : List Char) : Takes (c :: rest) rest :=
  @takes_of_neutral [c] (by simpa using h) rest

theorem takes_refl (cs : List Char) : Takes cs cs := @takes_of_neutral [] (by simp) cs

theorem isSpace_neutral {c : Char} (h : isSpace c = true) : Neutral c := by
  simp only [isSpace, Bool.or_eq_true, decide_eq_true_eq] at h
  rcases h with ((rfl | rfl) | rfl) | rfl <;> exact by decide

theorem isDigit_neutral {c : Char} (h : c.isDigit = true) : Neutral c := by
  refine ⟨?_, ?_, ?_, ?_, ?_, ?_⟩ <;> (rintro rfl; exact absurd h (by decide))

theorem takes_dropWhile {p : Char → Bool} (h : ∀ c, p c = true → Neutral c) (cs : List Char) :
    Takes cs (cs.dropWhile p) := by
  have ht := takes_of_neutral
    (fun c (hc : c ∈ cs.takeWhile p) => h c (List.mem_takeWhile_imp hc)) (cs.dropWhile p)
  rwa [List.takeWhile_append_dropWhile] at ht

theorem takes_skipSpace (cs : List Char) : Takes cs (skipSpace cs) :=
  takes_dropWhile (fun _ => isSpace_neutral) cs

theorem takes_digits (cs : List Char) : Takes cs (cs.dropWhile Char.isDigit) :=
  takes_dropWhile (fun _ => isDigit_neutral) cs

theorem takes_scanMinus (cs : List Char) : Takes cs (scanMinus cs).2 := by
  unfold scanMinus
  split
  · exact takes_cons (by decide) _
  · exact takes_refl cs

theorem takes_scanInt {cs rest ds : List Char} (h : scanInt cs = some (ds, rest)) :
    Takes cs rest := by
  unfold scanInt at h
  split at h
  · cases h
  · split_ifs at h with h₁ h₂
    · cases h
      exact takes_cons (h₁ ▸ by decide) _
    · cases h
      exact (takes_cons (isDigit_neutral h₂) _).trans (takes_digits _)

theorem takes_scanFraction (cs : List Char) : Takes cs (scanFraction cs).2 := by
  unfold scanFraction
  split
  · split_ifs with h
    · exact (takes_cons (by decide) _).trans
        ((takes_cons (isDigit_neutral h) _).trans (takes_digits _))
    · exact takes_refl _
  · exact takes_refl _

theorem takes_scanSign (cs : List Char) : Takes cs (scanSign cs).2 := by
  unfold scanSign
  split
  · exact takes_cons (by decide) _
  · exact takes_cons (by decide) _
  · exact takes_refl cs

theorem takes_scanExponent (cs : List Char) : Takes cs (scanExponent cs).2 := by
  cases cs with
  | nil => exact takes_refl []
  | cons c cs =>
      unfold scanExponent
      dsimp only
      split_ifs with h h'
      · exact takes_refl _
      · have hc : Neutral c := by rcases h with rfl | rfl <;> decide
        exact (takes_cons hc _).trans ((takes_scanSign cs).trans (takes_digits _))
      · exact takes_refl _

theorem takes_scanNumber {cs rest : List Char} {n : NumberText}
    (h : scanNumber cs = some (n, rest)) : Takes cs rest := by
  unfold scanNumber at h
  dsimp only at h
  split at h
  · cases h
  · next ds cs₂ hint =>
    cases h
    exact (takes_scanMinus cs).trans ((takes_scanInt hint).trans
      ((takes_scanFraction _).trans (takes_scanExponent _)))

theorem literals_neutral : ∀ l ∈ literals, ∀ c ∈ l.1, Neutral c := by
  have h : (literals.all fun l => l.1.all fun c => decide (Neutral c)) = true := rfl
  simpa using h

theorem takes_scanAtom {cs rest : List Char} {v : PyVal} (h : scanAtom cs = .ok (v, rest)) :
    Takes cs rest := by
  unfold scanAtom at h
  split at h
  · next l hl =>
    cases h
    have hpre : l.1.isPrefixOf cs = true := by simpa using List.find?_some hl
    obtain ⟨t, rfl⟩ := List.isPrefixOf_iff_prefix.mp hpre
    rw [List.drop_left]
    exact takes_of_neutral (literals_neutral l (List.mem_of_find?_eq_some hl)) t
  · split at h
    · next hn => cases h; exact takes_scanNumber hn
    · cases h

/-! ### Strings -/

/-- Inside a string the text neither leaves it nor breaks off in an escape. -/
def Inside (cs : List Char) : Prop :=
  ∀ d, (str d).run cs = str d ∧ ∀ p, p <+: cs → ∀ d', (str d).run p ≠ out d'

theorem inside_nil : Inside [] := by
  refine fun d => ⟨rfl, fun p hp d' hd => ?_⟩
  rw [List.prefix_nil] at hp
  subst hp
  cases hd

theorem Inside.append {cs ds : List Char} (hc : Inside cs) (hd : Inside ds) :
    Inside (cs ++ ds) := by
  refine fun d => ⟨by rw [run_append, (hc d).1, (hd d).1], fun p hp d' h => ?_⟩
  rcases prefix_append_cases hp with h₁ | ⟨t, rfl, ht⟩
  · exact (hc d).2 p h₁ d' h
  · rw [run_append, (hc d).1] at h
    exact (hd d).2 t ht d' h

theorem inside_cons {c : Char} (h : c ≠ '\x22' ∧ c ≠ '\\') : Inside [c] := by
  have hstep : ∀ d, (str d).step c = str d := by simp [Place.step, h.1, h.2]
  refine fun d => ⟨hstep d, fun p hp d' hd => ?_⟩
  rcases List.prefix_cons_iff.mp hp with rfl | ⟨t, rfl, ht⟩
  · cases hd
  · rw [List.prefix_nil] at ht
    subst ht
    rw [run_cons, hstep] at hd
    cases hd

theorem inside_escape (c : Char) : Inside ['\\', c] := by
  refine fun d => ⟨rfl, fun p hp d' hd => ?_⟩
  rcases List.prefix_cons_iff.mp hp with rfl | ⟨t, rfl, ht⟩
  · cases hd
  · rcases List.prefix_cons_iff.mp ht with rfl | ⟨t', rfl, ht'⟩
    · cases hd
    · rw [List.prefix_nil] at ht'
      subst ht'
      cases hd

theorem hexVal_inside {c : Char} {n : ℕ} (h : hexVal c = some n) : c ≠ '\x22' ∧ c ≠ '\\' := by
  have hq : hexVal '\x22' = none := by decide
  have hb : hexVal '\\' = none := by decide
  constructor
  · rintro rfl
    rw [hq] at h
    cases h
  · rintro rfl
    rw [hb] at h
    cases h

theorem scanHex_inside {h rest : List Char} {n : ℕ} (hs : scanHex h = some (n, rest)) :
    ∃ used, h = used ++ rest ∧ Inside used := by
  unfold scanHex at hs
  split at hs
  · next a b c d e rest' =>
    split at hs
    · next a' b' c' d' ha hb hc hd =>
      cases hs
      exact ⟨[a, b, c, d], rfl, (inside_cons (hexVal_inside ha)).append
        ((inside_cons (hexVal_inside hb)).append
          ((inside_cons (hexVal_inside hc)).append (inside_cons (hexVal_inside hd))))⟩
    · cases hs
  · cases hs

theorem scanUnicode_inside {h rest : List Char} {c : Char}
    (hs : scanUnicode h = .ok (c, rest)) : ∃ used, h = used ++ rest ∧ Inside used := by
  unfold scanUnicode at hs
  split at hs
  · cases hs
  · next n r hn =>
    obtain ⟨used, rfl, hu⟩ := scanHex_inside hn
    split_ifs at hs
    · split at hs
      · next h' =>
        split_ifs at hs
        · cases hs; exact ⟨used, rfl, hu⟩
        · split at hs
          · cases hs
          · next m r' hm =>
            split_ifs at hs
            · simp only [Except.ok.injEq, Prod.mk.injEq] at hs
              obtain ⟨-, rfl⟩ := hs
              obtain ⟨used', rfl, hu'⟩ := scanHex_inside hm
              exact ⟨used ++ (['\\', 'u'] ++ used'), by simp,
                hu.append ((inside_escape 'u').append hu')⟩
            · cases hs; exact ⟨used, rfl, hu⟩
      · cases hs; exact ⟨used, rfl, hu⟩
    · cases hs; exact ⟨used, rfl, hu⟩
    · cases hs; exact ⟨used, rfl, hu⟩

/-- One character of a string is taken from inside it. -/
theorem scanUnit_inside {start cs rest : List Char} {c : Char}
    (h : scanUnit start cs = .ok (some c, rest)) :
    ∃ used, cs = used ++ rest ∧ used ≠ [] ∧ Inside used := by
  cases cs with
  | nil => cases h
  | cons a cs =>
      unfold scanUnit at h
      dsimp only at h
      by_cases h₁ : a = '\x22'
      · rw [if_pos h₁] at h
        cases h
      rw [if_neg h₁] at h
      by_cases h₂ : a = '\\'
      · rw [if_pos h₂] at h
        subst h₂
        split at h
        · cases h
        · next e r =>
          split_ifs at h with hu
          · split at h
            · cases h
            · next hs =>
              cases h
              obtain ⟨used, rfl, hin⟩ := scanUnicode_inside hs
              exact ⟨['\\', e] ++ used, by simp, by simp, (inside_escape e).append hin⟩
          · split at h
            · cases h
            · cases h; exact ⟨['\\', e], by simp, by simp, inside_escape e⟩
      · rw [if_neg h₂] at h
        split_ifs at h
        cases h
        exact ⟨[_], rfl, by simp, inside_cons ⟨h₁, h₂⟩⟩

theorem scanUnit_close {start cs rest : List Char} (h : scanUnit start cs = .ok (none, rest)) :
    cs = '\x22' :: rest := by
  cases cs with
  | nil => cases h
  | cons a cs =>
      unfold scanUnit at h
      dsimp only at h
      by_cases h₁ : a = '\x22'
      · rw [if_pos h₁] at h
        cases h
        rw [h₁]
      rw [if_neg h₁] at h
      by_cases h₂ : a = '\\'
      · rw [if_pos h₂] at h
        split at h
        · cases h
        · split_ifs at h
          · split at h <;> cases h
          · split at h <;> cases h
      · rw [if_neg h₂] at h
        split_ifs at h
        cases h

theorem scanUnits_inside {start : List Char} {n : ℕ} {cs rest s : List Char}
    (h : scanUnits start n cs = .ok (s, rest)) :
    ∃ used, cs = used ++ '\x22' :: rest ∧ Inside used := by
  induction n generalizing cs s with
  | zero => cases h
  | succ n ih =>
      unfold scanUnits at h
      split at h
      · cases h
      · next hu =>
        cases h
        exact ⟨[], scanUnit_close hu, inside_nil⟩
      · next hu =>
        split at h
        · cases h
        · next hs =>
          cases h
          obtain ⟨used, rfl, -, hin⟩ := scanUnit_inside hu
          obtain ⟨used', rfl, hin'⟩ := ih hs
          exact ⟨used ++ used', by simp, hin.append hin'⟩

/-- A string in its quotes is balanced. -/
theorem Inside.balanced {cs : List Char} (h : Inside cs) :
    Balanced ('\x22' :: (cs ++ ['\x22'])) := by
  refine fun d => ⟨?_, fun p hp d' hd => ?_⟩
  · rw [run_cons, run_append]
    exact congrArg (fun q => Place.run q ['\x22']) (h d).1
  · rcases List.prefix_cons_iff.mp hp with rfl | ⟨p', rfl, hp'⟩
    · cases hd
      exact le_rfl
    · rw [run_cons] at hd
      rcases prefix_append_cases hp' with h₁ | ⟨t, rfl, ht⟩
      · exact absurd hd ((h d).2 p' h₁ d')
      · rcases List.prefix_cons_iff.mp ht with rfl | ⟨t', rfl, ht'⟩
        · rw [List.append_nil] at hd
          exact absurd hd ((h d).2 cs (List.prefix_refl cs) d')
        · rw [List.prefix_nil] at ht'
          subst ht'
          rw [run_append] at hd
          have hrun : (str d).run cs = str d := (h d).1
          change ((str d).run cs).run ['\x22'] = out d' at hd
          rw [hrun] at hd
          cases hd
          exact le_rfl

theorem takes_scanString {cs rest : List Char} {s : String}
    (h : scanString cs = .ok (s, rest)) : Takes ('\x22' :: cs) rest := by
  unfold scanString at h
  split at h
  · cases h
  · next hs =>
    cases h
    obtain ⟨used, rfl, hin⟩ := scanUnits_inside hs
    exact ⟨'\x22' :: (used ++ ['\x22']), by simp, hin.balanced⟩

/-! ### Values -/

theorem takes_scanKey {cs rest : List Char} {k : String} (h : scanKey cs = .ok (k, rest)) :
    Takes cs rest := by
  unfold scanKey at h
  split at h
  · cases h
  · next c cs =>
    split_ifs at h with hc
    subst hc
    split at h
    · cases h
    · next k' r hs =>
      have hstr := takes_scanString hs
      split at h
      · cases h
      · next d r' hr =>
        split_ifs at h with hd
        cases h
        subst hd
        have hspace := takes_skipSpace r
        rw [hr] at hspace
        exact hstr.trans (hspace.trans ((takes_cons (by decide) _).trans (takes_skipSpace _)))

theorem Takes.bracket {cs rest : List Char} {o c : Char}
    (hb : (o = '\x7b' ∧ c = '\x7d') ∨ (o = '[' ∧ c = ']')) (h : Takes cs (c :: rest)) :
    Takes (o :: cs) rest := by
  obtain ⟨used, rfl, hu⟩ := h
  exact ⟨o :: (used ++ [c]), by simp, hu.bracket hb⟩

theorem takes_skipSpace_cons {cs rest : List Char} {c : Char} (h : skipSpace cs = c :: rest) :
    Takes cs (c :: rest) :=
  h ▸ takes_skipSpace cs

/-- An empty container. -/
theorem takes_skipSpace_tail {cs : List Char} {o c : Char}
    (hb : (o = '\x7b' ∧ c = '\x7d') ∨ (o = '[' ∧ c = ']'))
    (h : (skipSpace cs).head? = some c) : Takes (o :: cs) (skipSpace cs).tail := by
  obtain ⟨t, ht⟩ : ∃ t, skipSpace cs = c :: t := by
    cases hs : skipSpace cs with
    | nil => simp [hs] at h
    | cons d t => exact ⟨t, by simp_all⟩
  rw [ht]
  exact (takes_skipSpace_cons ht).bracket hb

mutual

/-- Whatever the scanner takes is balanced. -/
theorem takes_scanOnce : ∀ (n : ℕ) (cs : List Char) {v : PyVal} {rest : List Char},
    scanOnce n cs = .ok (v, rest) → Takes cs rest
  | 0, _, _, _, h => by cases h
  | _ + 1, [], _, _, h => by cases h
  | n + 1, c :: cs, v, rest, h => by
      unfold scanOnce at h
      split_ifs at h with h₁ h₂ h₃ h₄ h₅
      · subst h₁
        split at h
        · cases h
        · next hs => cases h; exact takes_scanString hs
      · subst h₂
        cases h
        exact takes_skipSpace_tail (.inl ⟨rfl, rfl⟩) h₃
      · subst h₂
        split at h
        · cases h
        · next hs =>
          cases h
          exact ((takes_skipSpace cs).trans (takes_scanEntries n _ hs)).bracket (.inl ⟨rfl, rfl⟩)
      · subst h₄
        cases h
        exact takes_skipSpace_tail (.inr ⟨rfl, rfl⟩) h₅
      · subst h₄
        split at h
        · cases h
        · next hs =>
          cases h
          exact ((takes_skipSpace cs).trans (takes_scanItems n _ hs)).bracket (.inr ⟨rfl, rfl⟩)
      · exact takes_scanAtom h

theorem takes_scanItems : ∀ (n : ℕ) (cs : List Char) {xs : List PyVal} {rest : List Char},
    scanItems n cs = .ok (xs, rest) → Takes cs (']' :: rest)
  | 0, _, _, _, h => by cases h
  | n + 1, cs, xs, rest, h => by
      unfold scanItems at h
      split at h
      · cases h
      · next x r hx =>
        have htake := takes_scanOnce n cs hx
        split at h
        · cases h
        · next c r' hr =>
          have hspace := takes_skipSpace_cons hr
          split_ifs at h with h₁ h₂
          · cases h
            subst h₁
            exact htake.trans hspace
          · subst h₂
            split at h
            · cases h
            · next hs =>
              cases h
              exact htake.trans (hspace.trans ((takes_cons (by decide) _).trans
                ((takes_skipSpace _).trans (takes_scanItems n _ hs))))

theorem takes_scanEntries : ∀ (n : ℕ) (cs : List Char) {es : List (String × PyVal)}
    {rest : List Char}, scanEntries n cs = .ok (es, rest) → Takes cs ('\x7d' :: rest)
  | 0, _, _, _, h => by cases h
  | n + 1, cs, es, rest, h => by
      unfold scanEntries at h
      split at h
      · cases h
      · next k r₀ hk =>
        have hkey := takes_scanKey hk
        split at h
        · cases h
        · next x r hx =>
          have htake := hkey.trans (takes_scanOnce n r₀ hx)
          split at h
          · cases h
          · next c r' hr =>
            have hspace := takes_skipSpace_cons hr
            split_ifs at h with h₁ h₂
            · cases h
              subst h₁
              exact htake.trans hspace
            · subst h₂
              split at h
              · cases h
              · next hs =>
                cases h
                exact htake.trans (hspace.trans ((takes_cons (by decide) _).trans
                  ((takes_skipSpace _).trans (takes_scanEntries n _ hs))))

end

/-- A text that parses leads back to where it started. -/
theorem run_of_loads {doc : List Char} {v : PyVal} (h : loads doc = .ok v) :
    (out 0).run doc = out 0 := by
  unfold loads at h
  split_ifs at h
  split at h
  · cases h
  · next v' rest hs =>
    split at h
    · next hrest =>
      have htake := (takes_skipSpace doc).trans ((takes_scanOnce _ _ hs).trans
        (takes_skipSpace rest))
      rw [hrest] at htake
      obtain ⟨used, hused, hb⟩ := htake
      rw [hused, List.append_nil, hb.run]
    · cases h

/-! ### Enough fuel -/

theorem Takes.length_le {cs rest : List Char} (h : Takes cs rest) : rest.length ≤ cs.length := by
  obtain ⟨used, rfl, -⟩ := h
  simp

theorem scanUnicode_ne_fuel (h : List Char) : scanUnicode h ≠ .error .fuel := by
  unfold scanUnicode
  split
  · rintro ⟨⟩
  · split_ifs
    · split
      · split_ifs
        · rintro ⟨⟩
        · split
          · rintro ⟨⟩
          · split_ifs <;> simp
      · rintro ⟨⟩
    · rintro ⟨⟩
    · rintro ⟨⟩

theorem scanUnit_ne_fuel (start cs : List Char) : scanUnit start cs ≠ .error .fuel := by
  unfold scanUnit
  split
  · rintro ⟨⟩
  · split_ifs
    · rintro ⟨⟩
    · split
      · rintro ⟨⟩
      · split_ifs
        · split
          · next h => rintro ⟨⟩; exact scanUnicode_ne_fuel _ h
          · rintro ⟨⟩
        · split <;> rintro ⟨⟩
    · rintro ⟨⟩
    · rintro ⟨⟩

theorem scanUnits_ne_fuel (start : List Char) {n : ℕ} {cs : List Char} (hn : cs.length < n) :
    scanUnits start n cs ≠ .error .fuel := by
  induction n generalizing cs with
  | zero => omega
  | succ n ih =>
      unfold scanUnits
      split
      · next h => rintro ⟨⟩; exact scanUnit_ne_fuel _ _ h
      · rintro ⟨⟩
      · next hu =>
        obtain ⟨used, rfl, hne, -⟩ := scanUnit_inside hu
        have hpos := List.length_pos_iff.mpr hne
        rw [List.length_append] at hn
        split
        · next hs => rintro ⟨⟩; exact ih (by omega) hs
        · rintro ⟨⟩

theorem scanString_ne_fuel (cs : List Char) : scanString cs ≠ .error .fuel := by
  unfold scanString
  split
  · next err h =>
    rintro ⟨⟩
    exact scanUnits_ne_fuel _ (Nat.lt_succ_self _) h
  · rintro ⟨⟩

theorem scanKey_ne_fuel (cs : List Char) : scanKey cs ≠ .error .fuel := by
  unfold scanKey
  split
  · rintro ⟨⟩
  · split_ifs
    · split
      · next h => rintro ⟨⟩; exact scanString_ne_fuel _ h
      · split
        · rintro ⟨⟩
        · split_ifs <;> rintro ⟨⟩
    · rintro ⟨⟩

theorem scanAtom_ne_fuel (cs : List Char) : scanAtom cs ≠ .error .fuel := by
  unfold scanAtom
  split
  · rintro ⟨⟩
  · split <;> rintro ⟨⟩

theorem length_skipSpace_le (cs : List Char) : (skipSpace cs).length ≤ cs.length :=
  (takes_skipSpace cs).length_le

mutual

/-- Fuel of twice the length of the text is enough. -/
theorem scanOnce_ne_fuel : ∀ (n : ℕ) (cs : List Char), 2 * cs.length < n →
    scanOnce n cs ≠ .error .fuel
  | 0, _, hn => by omega
  | _ + 1, [], _ => by rintro ⟨⟩
  | n + 1, c :: cs, hn => by
      have hspace := length_skipSpace_le cs
      rw [List.length_cons] at hn
      unfold scanOnce
      split_ifs
      · split
        · next h => rintro ⟨⟩; exact scanString_ne_fuel _ h
        · rintro ⟨⟩
      · rintro ⟨⟩
      · split
        · next h => rintro ⟨⟩; exact scanEntries_ne_fuel n _ (by omega) h
        · rintro ⟨⟩
      · rintro ⟨⟩
      · split
        · next h => rintro ⟨⟩; exact scanItems_ne_fuel n _ (by omega) h
        · rintro ⟨⟩
      · exact scanAtom_ne_fuel _

theorem scanItems_ne_fuel : ∀ (n : ℕ) (cs : List Char), 2 * cs.length + 1 < n →
    scanItems n cs ≠ .error .fuel
  | 0, _, hn => by omega
  | n + 1, cs, hn => by
      unfold scanItems
      split
      · next h => rintro ⟨⟩; exact scanOnce_ne_fuel n cs (by omega) h
      · next x r hx =>
        split
        · rintro ⟨⟩
        · next c r' hr =>
          have h₁ := (takes_scanOnce n cs hx).length_le
          have h₂ := (takes_skipSpace_cons hr).length_le
          have h₃ := length_skipSpace_le r'
          rw [List.length_cons] at h₂
          split_ifs
          · rintro ⟨⟩
          · split
            · next h => rintro ⟨⟩; exact scanItems_ne_fuel n _ (by omega) h
            · rintro ⟨⟩
          · rintro ⟨⟩

theorem scanEntries_ne_fuel : ∀ (n : ℕ) (cs : List Char), 2 * cs.length + 1 < n →
    scanEntries n cs ≠ .error .fuel
  | 0, _, hn => by omega
  | n + 1, cs, hn => by
      unfold scanEntries
      split
      · next h => rintro ⟨⟩; exact scanKey_ne_fuel _ h
      · next k r₀ hk =>
        have h₀ := (takes_scanKey hk).length_le
        split
        · next h => rintro ⟨⟩; exact scanOnce_ne_fuel n r₀ (by omega) h
        · next x r hx =>
          split
          · rintro ⟨⟩
          · next c r' hr =>
            have h₁ := (takes_scanOnce n r₀ hx).length_le
            have h₂ := (takes_skipSpace_cons hr).length_le
            have h₃ := length_skipSpace_le r'
            rw [List.length_cons] at h₂
            split_ifs
            · rintro ⟨⟩
            · split
              · next h => rintro ⟨⟩; exact scanEntries_ne_fuel n _ (by omega) h
              · rintro ⟨⟩
            · rintro ⟨⟩

end

/-- `json.loads` never runs out of fuel: it returns a value or a decoding
error. -/
theorem loads_ne_fuel (doc : List Char) : loads doc ≠ .error .fuel := by
  have hspace := length_skipSpace_le doc
  unfold loads
  split_ifs
  · rintro ⟨⟩
  · split
    · next h => rintro ⟨⟩; exact scanOnce_ne_fuel _ _ (by omega) h
    · split <;> rintro ⟨⟩

/-! ### Objects that break off -/

/-- The text of an object. -/
def IsObject (text : List Char) : Prop :=
  ∃ inner, text = '\x7b' :: (inner ++ ['\x7d']) ∧ Balanced inner

theorem scanOnce_object {n : ℕ} {cs rest : List Char} {v : PyVal}
    (h : scanOnce n ('\x7b' :: cs) = .ok (v, rest)) : Takes cs ('\x7d' :: rest) := by
  cases n with
  | zero => cases h
  | succ n =>
      unfold scanOnce at h
      rw [if_neg (by decide), if_pos rfl] at h
      split_ifs at h with h₁
      · cases h
        cases hs : skipSpace cs with
        | nil => simp [hs] at h₁
        | cons d t =>
            obtain rfl : d = '\x7d' := by simpa [hs] using h₁
            exact takes_skipSpace_cons hs
      · split at h
        · cases h
        · next hs =>
          cases h
          exact (takes_skipSpace cs).trans (takes_scanEntries n _ hs)

theorem isObject_dumps (L : Layout) {es : List (String × PyVal)}
    (hk : (PyVal.dict es).keyed = true) : IsObject (dumps L (.dict es)) := by
  obtain ⟨cs, hcs⟩ : ∃ cs, dumps L (.dict es) = '\x7b' :: cs := by
    cases es with
    | nil => exact ⟨_, rfl⟩
    | cons e es => exact ⟨_, rfl⟩
  have hscan := scanOnce_write (L := L) (.dict es) 0 (2 * (dumps L (.dict es)).length + 1) [] hk
    (by simp [dumps]) delimited_nil
  change scanOnce _ (dumps L (.dict es) ++ []) = _ at hscan
  rw [List.append_nil, hcs] at hscan
  obtain ⟨inner, rfl, hb⟩ := scanOnce_object hscan
  exact ⟨inner, hcs, hb⟩

theorem IsObject.balanced {text : List Char} (h : IsObject text) : Balanced text := by
  obtain ⟨inner, rfl, hb⟩ := h
  exact hb.bracket (.inl ⟨rfl, rfl⟩)

/-- An object that has broken off is inside its braces, or inside a string. -/
theorem IsObject.depth_pos {text p : List Char} (h : IsObject text) (hp : p <+: text)
    (hne : p ≠ []) (hlt : p ≠ text) {d : ℤ} (hd : (out 0).run p = out d) : 0 < d := by
  obtain ⟨inner, rfl, hb⟩ := h
  rcases List.prefix_cons_iff.mp hp with rfl | ⟨p', rfl, hp'⟩
  · exact absurd rfl hne
  · rcases prefix_append_cases hp' with h₁ | ⟨t, rfl, ht⟩
    · have := (hb 1).2 p' h₁ d hd
      omega
    · rcases List.prefix_cons_iff.mp ht with rfl | ⟨t', rfl, ht'⟩
      · have := (hb 1).2 inner (List.prefix_refl inner) d
          (by rw [List.append_nil, run_cons] at hd; exact hd)
        omega
      · rw [List.prefix_nil] at ht'
        subst ht'
        exact absurd rfl hlt

/-- A text read from inside a string: in and out of strings the other way
round, or stuck at a backslash outside of one. -/
def Flip (p q : Place) : Prop :=
  q = dead ∨ (∃ a b, p = out a ∧ q = str b) ∨ ∃ a b, p = str a ∧ q = out b

theorem Flip.step {p q : Place} (h : Flip p q) (c : Char) (hp : p.step c ≠ dead) :
    Flip (p.step c) (q.step c) := by
  rcases h with rfl | ⟨a, b, rfl, rfl⟩ | ⟨a, b, rfl, rfl⟩
  · exact .inl rfl
  · by_cases h₁ : c = '\x22'
    · exact .inr (.inr ⟨a, b, by simp [Place.step, h₁], by simp [Place.step, h₁]⟩)
    · by_cases h₂ : c = '\\'
      · exact absurd (by simp [Place.step, h₂]) hp
      · refine .inr (.inl ?_)
        have hq : (str b).step c = str b := by simp [Place.step, h₁, h₂]
        rw [hq]
        simp only [Place.step, h₁, h₂, if_false]
        split_ifs
        · exact ⟨_, b, rfl, rfl⟩
        · exact ⟨_, b, rfl, rfl⟩
        · exact ⟨_, b, rfl, rfl⟩
  · by_cases h₁ : c = '\x22'
    · exact .inr (.inl ⟨a, b, by simp [Place.step, h₁], by simp [Place.step, h₁]⟩)
    · by_cases h₂ : c = '\\'
      · exact .inl (by simp [Place.step, h₂])
      · refine .inr (.inr ?_)
        have hp' : (str a).step c = str a := by simp [Place.step, h₁, h₂]
        rw [hp']
        simp only [Place.step, h₁, h₂, if_false]
        split_ifs
        · exact ⟨a, _, rfl, rfl⟩
        · exact ⟨a, _, rfl, rfl⟩
        · exact ⟨a, _, rfl, rfl⟩

theorem Flip.run {p q : Place} (h : Flip p q) {cs : List Char} (hp : p.run cs ≠ dead) :
    Flip (p.run cs) (q.run cs) := by
  induction cs generalizing p q with
  | nil => exact h
  | cons c cs ih =>
      refine ih (h.step c fun hdead => hp ?_) hp
      rw [run_cons, hdead, run_dead]

/-- An object read from inside a string never gets back outside. -/
theorem IsObject.run_str {text : List Char} (h : IsObject text) (d d' : ℤ) :
    (str d).run text ≠ out d' ∧ (esc d).run text ≠ out d' := by
  obtain ⟨inner, rfl, hb⟩ := h
  -- the brace is a character of the string, whether escaped or not
  have hflip : Flip ((out 1).run (inner ++ ['\x7d'])) ((str d).run (inner ++ ['\x7d'])) := by
    refine Flip.run (.inr (.inl ⟨1, d, rfl, rfl⟩)) ?_
    rw [run_append, hb.run]
    exact fun hdead => by cases hdead
  have hout : (out 1).run (inner ++ ['\x7d']) = out 0 := by
    rw [run_append, hb.run]
    rfl
  rw [hout] at hflip
  have hne : (str d).run (inner ++ ['\x7d']) ≠ out d' := by
    intro hcon
    rw [hcon] at hflip
    rcases hflip with h₁ | ⟨a, b, -, h₁⟩ | ⟨a, b, h₁, -⟩ <;> cases h₁
  exact ⟨hne, hne⟩

/-- An object that breaks off does not parse, nor does it with another object
after it. -/
theorem loads_broken {text p t : List Char} (h : IsObject text) (hp : p <+: text) (hne : p ≠ [])
    (hlt : p ≠ text) (ht : t = [] ∨ IsObject t) (v : PyVal) : loads (p ++ t) ≠ .ok v := by
  intro hv
  have hrun := run_of_loads hv
  rw [run_append] at hrun
  cases hq : (out 0).run p with
  | out d =>
      have hd := h.depth_pos hp hne hlt hq
      have hback : (out d).run t = out d := by
        rcases ht with rfl | ht
        · rfl
        · exact ht.balanced.run d
      rw [hq, hback] at hrun
      cases hrun
      exact absurd hd (lt_irrefl 0)
  | str d =>
      rw [hq] at hrun
      rcases ht with rfl | ht
      · cases hrun
      · exact (ht.run_str d 0).1 hrun
  | esc d =>
      rw [hq] at hrun
      rcases ht with rfl | ht
      · cases hrun
      · exact (ht.run_str d 0).2 hrun
  | dead =>
      rw [hq, run_dead] at hrun
      cases hrun

end PyJson
