/-
JsonpySql/JsonRoundTrip.lean

What `json.dumps` writes, `json.loads` reads back.

The keys of a mapping are distinct (`PyVal.keyed`), as in every mapping of the
interpreter; then a value comes back as `viaJson` says, whatever the layout
(`loads_dumps`).  Inside a longer text the scanner stops where the value ends
(`scanOnce_write`), provided that what follows cannot be taken for more of a
number.
-/
import JsonpySql.JsonText

/-! ### Distinct keys -/

namespace PyVal

mutual

/-- No mapping in the value has a key twice. -/
def keyed : PyVal → Bool
  | .scalar _ => true
  | .list xs => keyedList xs
  | .dict es => decide (es.map Prod.fst).Nodup && keyedEntries es

def keyedList : List PyVal → Bool
  | [] => true
  | x :: xs => keyed x && keyedList xs

def keyedEntries : List (String × PyVal) → Bool
  | [] => true
  | (_, x) :: es => keyed x && keyedEntries es

end

theorem keys_viaJsonEntries (es : List (String × PyVal)) :
    (viaJsonEntries es).map Prod.fst = es.map Prod.fst := by
  induction es with
  | nil => rfl
  | cons e es ih => simp [viaJsonEntries, ih]

end PyVal

namespace PyJson

/-! ### White space -/

theorem skipSpace_append {pad cs : List Char} (hp : ∀ c ∈ pad, isSpace c = true)
    (hc : ∀ c ∈ cs.head?, isSpace c = false) : skipSpace (pad ++ cs) = cs := by
  unfold skipSpace
  rw [List.dropWhile_append_of_pos hp]
  cases cs with
  | nil => rfl
  | cons c cs => simp [hc c (by simp)]

theorem isSpace_delimited {c : Char} (h : isSpace c = true) :
    c.isDigit = false ∧ c ≠ '.' ∧ c ≠ 'e' ∧ c ≠ 'E' := by
  simp only [isSpace, Bool.or_eq_true, decide_eq_true_eq] at h
  rcases h with ((rfl | rfl) | rfl) | rfl <;> decide

/-- White space cannot be taken for more of a number. -/
theorem delimited_append {pad cs : List Char} (hp : ∀ c ∈ pad, isSpace c = true)
    (hc : Delimited cs) : Delimited (pad ++ cs) := by
  cases pad with
  | nil => exact hc
  | cons c pad =>
      intro d hd
      cases hd
      exact isSpace_delimited (hp c (by simp))

theorem delimited_cons {c : Char} (cs : List Char)
    (h : c.isDigit = false ∧ c ≠ '.' ∧ c ≠ 'e' ∧ c ≠ 'E') : Delimited (c :: cs) := by
  intro d hd
  cases hd
  exact h

/-! ### Strings -/

theorem hexVal_digitChar : ∀ n < 16, hexVal (Nat.digitChar n) = some n := by decide

theorem hexDigits_four : ∀ n < 0x20,
    hexDigits 4 n = ['0', '0', Nat.digitChar (n / 16), Nat.digitChar (n % 16)] := by decide

theorem scanHex_hexDigits {n : ℕ} (hn : n < 0x20) {rest : List Char} (hr : rest ≠ []) :
    scanHex (hexDigits 4 n ++ rest) = some (n, rest) := by
  cases rest with
  | nil => exact absurd rfl hr
  | cons c cs =>
      rw [hexDigits_four n hn]
      simp only [List.cons_append, List.nil_append, scanHex,
        hexVal_digitChar (n / 16) (by omega), hexVal_digitChar (n % 16) (by omega),
        show hexVal '0' = some 0 from rfl]
      simp only [Option.some.injEq, Prod.mk.injEq, and_true]
      omega

theorem unescape_of_shortEscape {c e : Char} (h : shortEscape c = some e) :
    e ≠ 'u' ∧ unescape e = some c := by
  unfold shortEscape at h
  split_ifs at h <;> (cases h; subst_vars; decide)

/-- An escaped character is read back. -/
theorem scanUnit_escapeChar (start : List Char) (c : Char) {rest : List Char} (hr : rest ≠ []) :
    scanUnit start (escapeChar c ++ rest) = .ok (some c, rest) := by
  unfold escapeChar
  split
  · next e he =>
    obtain ⟨hu, hun⟩ := unescape_of_shortEscape he
    simp [scanUnit, hu, hun]
  · next hnone =>
    have hc : c ≠ '\x22' ∧ c ≠ '\\' := by
      constructor <;> (rintro rfl; simp [shortEscape] at hnone)
    split_ifs with hlt
    · have hsur : isLowSurrogate c.toNat = false ∧ isHighSurrogate c.toNat = false := by
        simp only [isLowSurrogate, isHighSurrogate, Bool.and_eq_false_iff, decide_eq_false_iff_not]
        omega
      simp [scanUnit, scanUnicode, scanHex_hexDigits hlt hr, hsur.1, hsur.2]
    · have hlt' : ¬ c.toNat < 0x20 := hlt
      simp [scanUnit, hc.1, hc.2, hlt']

theorem scanUnits_flatMap (start : List Char) (s rest : List Char) {n : ℕ} (hn : s.length < n) :
    scanUnits start n (s.flatMap escapeChar ++ '\x22' :: rest) = .ok (s, rest) := by
  induction s generalizing n with
  | nil =>
      obtain ⟨n, rfl⟩ := Nat.exists_eq_add_of_lt hn
      simp [scanUnits, scanUnit]
  | cons c s ih =>
      obtain ⟨n, rfl⟩ : ∃ m, n = m + 1 := ⟨n - 1, by simp at hn; omega⟩
      rw [List.flatMap_cons, List.append_assoc, scanUnits,
        scanUnit_escapeChar start c (by simp)]
      dsimp only
      rw [ih (by simpa using hn)]

theorem escapeChar_ne_nil (c : Char) : escapeChar c ≠ [] := by
  unfold escapeChar
  split
  · simp
  · split_ifs <;> simp

theorem length_le_flatMap (s : List Char) : s.length ≤ (s.flatMap escapeChar).length := by
  induction s with
  | nil => simp
  | cons c s ih =>
      have := List.length_pos_iff.mpr (escapeChar_ne_nil c)
      rw [List.flatMap_cons, List.length_append, List.length_cons]
      omega

/-- The text after the opening quote of a string. -/
theorem scanString_append (s : String) (rest : List Char) :
    scanString (s.toList.flatMap escapeChar ++ '\x22' :: rest) = .ok (s, rest) := by
  have hlen := length_le_flatMap s.toList
  unfold scanString
  rw [scanUnits_flatMap _ _ _ (by simp only [List.length_append]; omega)]
  simp

/-! ### Numbers and words -/

/-- A number starts with a digit or with a minus and a digit. -/
theorem NumberText.text_head {n : NumberText} (hn : n.WellFormed) :
    ∃ c cs, c.isDigit = true ∧ (n.text = c :: cs ∨ n.text = '-' :: c :: cs) := by
  have hint : ∃ c cs, n.int = c :: cs ∧ c.isDigit = true := by
    rcases hn.int with h | h
    · exact ⟨'0', [], h, rfl⟩
    · cases hi : n.int with
      | nil => exact absurd hi h.ne_nil
      | cons c cs => exact ⟨c, cs, rfl, h.digits c (by simp [hi])⟩
  obtain ⟨c, cs, hi, hc⟩ := hint
  unfold NumberText.text
  rw [hi]
  cases n.neg
  · exact ⟨c, _, hc, .inl rfl⟩
  · exact ⟨c, _, hc, .inr rfl⟩

theorem literals_not_digit {c : Char} (hc : c.isDigit = true) (cs : List Char) :
    (literals.find? fun l => l.1.isPrefixOf (c :: cs)) = none ∧
      (literals.find? fun l => l.1.isPrefixOf ('-' :: c :: cs)) = none := by
  have hne : ∀ d : Char, d.isDigit = false → (d == c) = false := by
    intro d hd
    rw [beq_eq_false_iff_ne]
    rintro rfl
    rw [hc] at hd
    cases hd
  have hn := hne 'n' (by decide)
  have ht := hne 't' (by decide)
  have hf := hne 'f' (by decide)
  have hN := hne 'N' (by decide)
  have hI := hne 'I' (by decide)
  have hm := hne '-' (by decide)
  constructor <;> simp [literals, List.find?, List.isPrefixOf, hn, ht, hf, hN, hI, hm]

theorem scanAtom_text {n : NumberText} (hn : n.WellFormed) {rest : List Char}
    (hr : Delimited rest) : scanAtom (n.text ++ rest) = .ok (.scalar n.value, rest) := by
  have hlit : (literals.find? fun l => l.1.isPrefixOf (n.text ++ rest)) = none := by
    obtain ⟨c, cs, hc, h | h⟩ := NumberText.text_head hn
    · rw [h]
      exact (literals_not_digit hc _).1
    · rw [h]
      exact (literals_not_digit hc _).2
  unfold scanAtom
  rw [hlit, scanNumber_append hn hr]

theorem scanAtom_writeScalar {s : PyScalar} {rest : List Char} (hr : Delimited rest)
    (hs : ∀ t, jsonDefault s ≠ .str t) :
    scanAtom (writeScalar s ++ rest) = .ok (.scalar (jsonDefault s), rest) := by
  unfold writeScalar
  cases s with
  | none => rfl
  | bool b => cases b <;> rfl
  | int n =>
      dsimp only [jsonDefault]
      rw [NumberText.text_ofInt, scanAtom_text (NumberText.wellFormed_ofInt n) hr,
        NumberText.value_ofInt]
  | float x =>
      cases x with
      | nan => rfl
      | inf neg => cases neg <;> rfl
      | finite x =>
          obtain ⟨n, hn, htext, hval⟩ := exists_floatText x
          dsimp only [jsonDefault, writeFloat]
          rw [htext, scanAtom_text hn hr, hval]
  | str t | datetime t | date t | time t | decimal t | uuid t => exact absurd rfl (hs _)

/-! ### First characters -/

/-- What a value starts with: no white space, no bracket that closes and no
byte order mark. -/
def Opens (cs : List Char) : Prop :=
  ∃ c t, cs = c :: t ∧ isSpace c = false ∧ c ≠ ']' ∧ c ≠ '\x7d' ∧ c ≠ '\ufeff'

theorem Opens.append {cs : List Char} (h : Opens cs) (rest : List Char) :
    Opens (cs ++ rest) := by
  obtain ⟨c, t, rfl, hc⟩ := h
  exact ⟨c, t ++ rest, rfl, hc⟩

theorem Opens.skipSpace {pad cs : List Char} (h : Opens cs)
    (hp : ∀ c ∈ pad, isSpace c = true) : skipSpace (pad ++ cs) = cs := by
  obtain ⟨c, t, rfl, hc, -⟩ := h
  exact skipSpace_append hp (by simpa using hc)

theorem isDigit_opens {c : Char} (h : c.isDigit = true) :
    isSpace c = false ∧ c ≠ ']' ∧ c ≠ '\x7d' ∧ c ≠ '\ufeff' := by
  refine ⟨?_, ?_, ?_, ?_⟩
  · by_contra hs
    have := (isSpace_delimited (by simpa using hs)).1
    rw [h] at this
    cases this
  all_goals (rintro rfl; exact absurd h (by decide))

theorem opens_text {n : NumberText} (hn : n.WellFormed) : Opens n.text := by
  obtain ⟨c, cs, hc, h | h⟩ := NumberText.text_head hn
  · exact ⟨c, cs, h, isDigit_opens hc⟩
  · exact ⟨'-', c :: cs, h, by decide⟩

theorem opens_writeScalar (s : PyScalar) : Opens (writeScalar s) := by
  unfold writeScalar
  cases s with
  | none => exact ⟨'n', _, rfl, by decide⟩
  | bool b =>
      cases b
      · exact ⟨'f', _, rfl, by decide⟩
      · exact ⟨'t', _, rfl, by decide⟩
  | int n =>
      dsimp only [jsonDefault]
      rw [NumberText.text_ofInt]
      exact opens_text (NumberText.wellFormed_ofInt n)
  | float x =>
      cases x with
      | nan => exact ⟨'N', _, rfl, by decide⟩
      | inf neg =>
          cases neg
          · exact ⟨'I', _, rfl, by decide⟩
          · exact ⟨'-', _, rfl, by decide⟩
      | finite x =>
          obtain ⟨n, hn, htext, -⟩ := exists_floatText x
          dsimp only [jsonDefault, writeFloat]
          rw [htext]
          exact opens_text hn
  | str t | datetime t | date t | time t | decimal t | uuid t =>
      exact ⟨'\x22', _, rfl, by decide⟩

theorem opens_write (L : Layout) (depth : ℕ) (v : PyVal) : Opens (write L depth v) := by
  cases v with
  | scalar s => exact opens_writeScalar s
  | list xs =>
      cases xs
      · exact ⟨'[', _, rfl, by decide⟩
      · exact ⟨'[', _, rfl, by decide⟩
  | dict es =>
      cases es
      · exact ⟨'\x7b', _, rfl, by decide⟩
      · exact ⟨'\x7b', _, rfl, by decide⟩

/-! ### Values -/

theorem scanOnce_writeString (s : String) (n : ℕ) (rest : List Char) :
    scanOnce (n + 1) (writeString s ++ rest) = .ok (.str s, rest) := by
  have hstr := scanString_append s rest
  simp [writeString, scanOnce, hstr]

theorem writeScalar_eq_writeString {s : PyScalar} {t : String} (h : jsonDefault s = .str t) :
    writeScalar s = writeString t := by
  unfold writeScalar
  rw [h]

/-- No word and no number starts as a string or a container does. -/
theorem scanAtom_error {c : Char} (hc : c = '\x22' ∨ c = '\x7b' ∨ c = '[') (cs : List Char) :
    scanAtom (c :: cs) = .error (.decode "Expecting value" (c :: cs)) := by
  rcases hc with rfl | rfl | rfl <;> rfl

theorem scanOnce_writeScalar (s : PyScalar) (n : ℕ) {rest : List Char} (hr : Delimited rest) :
    scanOnce (n + 1) (writeScalar s ++ rest) = .ok (.scalar (jsonDefault s), rest) := by
  by_cases h : ∃ t, jsonDefault s = .str t
  · obtain ⟨t, ht⟩ := h
    rw [writeScalar_eq_writeString ht, ht, scanOnce_writeString]
  · push Not at h
    have hatom := scanAtom_writeScalar hr h
    obtain ⟨c, cs, hcs, -⟩ := (opens_writeScalar s).append rest
    rw [hcs] at hatom ⊢
    rw [← hatom, scanOnce]
    by_cases hc : c = '\x22' ∨ c = '\x7b' ∨ c = '['
    · rw [scanAtom_error hc] at hatom
      cases hatom
    · push Not at hc
      rw [if_neg hc.1, if_neg hc.2.1, if_neg hc.2.2]

variable {L : Layout}

theorem delimited_close {c : Char} (hc : c = ']' ∨ c = '\x7d' ∨ c = ',') (cs : List Char) :
    Delimited (c :: cs) := by
  refine delimited_cons cs ?_
  rcases hc with rfl | rfl | rfl <;> decide

theorem skipSpace_close {c : Char} (hc : c = ']' ∨ c = '\x7d' ∨ c = ',' ∨ c = ':')
    {pad : List Char} (hp : ∀ c ∈ pad, isSpace c = true) (cs : List Char) :
    skipSpace (pad ++ c :: cs) = c :: cs := by
  refine skipSpace_append hp fun d hd => ?_
  cases hd
  rcases hc with rfl | rfl | rfl | rfl <;> decide

/-- The items of a nonempty list. -/
def itemsText (L : Layout) (depth : ℕ) : List PyVal → List Char
  | [] => []
  | x :: xs => write L depth x ++ writeItems L depth xs

/-- The entries of a nonempty mapping. -/
def entriesText (L : Layout) (depth : ℕ) : List (String × PyVal) → List Char
  | [] => []
  | (k, x) :: es =>
      writeString k ++ ':' :: ' ' :: write L depth x ++ writeEntries L depth es

theorem opens_itemsText (depth : ℕ) (x : PyVal) (xs : List PyVal) (rest : List Char) :
    Opens (itemsText L depth (x :: xs) ++ rest) :=
  ((opens_write L depth x).append _).append rest

theorem opens_entriesText (depth : ℕ) (k : String) (x : PyVal) (es : List (String × PyVal))
    (rest : List Char) : Opens (entriesText L depth ((k, x) :: es) ++ rest) :=
  ⟨'\x22', _, rfl, by decide⟩

/-- A key is scanned up to its value. -/
theorem scanKey_append (k : String) {cs : List Char} (h : Opens cs) :
    scanKey (writeString k ++ ':' :: ' ' :: cs) = .ok (k, cs) := by
  have hstr := scanString_append k (':' :: ' ' :: cs)
  have hspace : skipSpace (' ' :: cs) = cs :=
    @Opens.skipSpace [' '] cs h (by simp [isSpace])
  have hcolon : skipSpace (':' :: ' ' :: cs) = ':' :: ' ' :: cs :=
    @skipSpace_close ':' (by simp) [] (by simp) _
  simp [writeString, scanKey, hstr, hcolon, hspace]

mutual

/-- A value is scanned to its end and no further. -/
theorem scanOnce_write : ∀ (v : PyVal) (depth n : ℕ) (rest : List Char), v.keyed = true →
    2 * (write L depth v).length < n → Delimited rest →
    scanOnce n (write L depth v ++ rest) = .ok (v.viaJson, rest)
  | .scalar s, depth, n + 1, rest, _, _, hr => scanOnce_writeScalar s n hr
  | .list [], depth, n + 1, rest, _, _, _ => rfl
  | .list (x :: xs), depth, n + 1, rest, hk, hn, _ => by
      have hitems := scanItems_write (x :: xs) (depth + 1) n (L.pad depth) rest (by simp) hk
        (by simp [write, itemsText] at hn ⊢; omega) (L.pad_space depth)
      have hopens := opens_itemsText (L := L) (depth + 1) x xs (L.pad depth ++ ']' :: rest)
      have htext : write L depth (.list (x :: xs)) ++ rest = '[' :: (L.pad (depth + 1) ++
          (itemsText L (depth + 1) (x :: xs) ++ (L.pad depth ++ ']' :: rest))) := by
        simp [write, itemsText]
      rw [htext, scanOnce, hopens.skipSpace (L.pad_space _)]
      obtain ⟨c, t, hcs, -, hc, -⟩ := hopens
      rw [hcs] at hitems ⊢
      simp [hitems, hc, PyVal.viaJson]
  | .dict [], depth, n + 1, rest, _, _, _ => rfl
  | .dict ((k, x) :: es), depth, n + 1, rest, hk, hn, _ => by
      have hk' : (((k, x) :: es).map Prod.fst).Nodup ∧
          PyVal.keyedEntries ((k, x) :: es) = true := by
        simpa only [PyVal.keyed, Bool.and_eq_true, decide_eq_true_eq] using hk
      have hentries := scanEntries_write ((k, x) :: es) (depth + 1) n (L.pad depth) rest (by simp)
        hk'.2 (by simp [write, entriesText] at hn ⊢; omega) (L.pad_space depth)
      have hopens := opens_entriesText (L := L) (depth + 1) k x es (L.pad depth ++ '\x7d' :: rest)
      have htext : write L depth (.dict ((k, x) :: es)) ++ rest =
          '\x7b' :: (L.pad (depth + 1) ++ (entriesText L (depth + 1) ((k, x) :: es) ++
            (L.pad depth ++ '\x7d' :: rest))) := by
        simp [write, entriesText]
      have hdict : (OrdDict.ofList (PyVal.viaJsonEntries ((k, x) :: es))).entries =
          PyVal.viaJsonEntries ((k, x) :: es) := by
        refine OrdDict.entries_ofList_of_nodup ?_
        rw [PyVal.keys_viaJsonEntries]
        exact hk'.1
      rw [htext, scanOnce, hopens.skipSpace (L.pad_space _)]
      obtain ⟨c, t, hcs, -, -, hc, -⟩ := hopens
      rw [hcs] at hentries ⊢
      simp [hentries, hc, PyVal.viaJson, hdict]
  | _, _, 0, _, _, hn, _ => by omega

/-- The items of a list, up to the closing bracket. -/
theorem scanItems_write : ∀ (xs : List PyVal) (depth n : ℕ) (pad rest : List Char), xs ≠ [] →
    PyVal.keyedList xs = true → 2 * (itemsText L depth xs).length + 1 < n →
    (∀ c ∈ pad, isSpace c = true) →
    scanItems n (itemsText L depth xs ++ (pad ++ ']' :: rest)) = .ok (PyVal.viaJsonList xs, rest)
  | [], _, _, _, _, h, _, _, _ => absurd rfl h
  | [x], depth, n + 1, pad, rest, _, hk, hn, hp => by
      simp only [PyVal.keyedList, Bool.and_true] at hk
      have hx := scanOnce_write x depth n (pad ++ ']' :: rest) hk
        (by simp [itemsText, writeItems] at hn; omega)
        (delimited_append hp (delimited_close (.inl rfl) _))
      have htext : itemsText L depth [x] = write L depth x := by simp [itemsText, writeItems]
      rw [htext, scanItems, hx]
      dsimp only
      rw [skipSpace_close (.inl rfl) hp]
      rfl
  | x :: y :: ys, depth, n + 1, pad, rest, _, hk, hn, hp => by
      have hk' : x.keyed = true ∧ PyVal.keyedList (y :: ys) = true := by
        simpa only [PyVal.keyedList, Bool.and_eq_true] using hk
      have hx := scanOnce_write x depth n
        (',' :: (L.gap depth ++ (itemsText L depth (y :: ys) ++ (pad ++ ']' :: rest)))) hk'.1
        (by simp [itemsText, writeItems] at hn; omega) (delimited_close (by simp) _)
      have hys := scanItems_write (y :: ys) depth n pad rest (by simp) hk'.2
        (by simp [itemsText, writeItems] at hn ⊢; omega) hp
      have htext : itemsText L depth (x :: y :: ys) ++ (pad ++ ']' :: rest) =
          write L depth x ++ (',' :: (L.gap depth ++
            (itemsText L depth (y :: ys) ++ (pad ++ ']' :: rest)))) := by
        simp [itemsText, writeItems]
      rw [htext, scanItems, hx]
      dsimp only
      rw [← List.nil_append (',' :: _), skipSpace_close (by simp) (by simp)]
      dsimp only
      rw [if_neg (by decide), if_pos rfl, (opens_itemsText depth y ys _).skipSpace (L.gap_space _),
        hys]
      rfl
  | _, _, 0, _, _, _, _, hn, _ => by omega

/-- The entries of a mapping, up to the closing brace. -/
theorem scanEntries_write : ∀ (es : List (String × PyVal)) (depth n : ℕ) (pad rest : List Char),
    es ≠ [] → PyVal.keyedEntries es = true → 2 * (entriesText L depth es).length + 1 < n →
    (∀ c ∈ pad, isSpace c = true) →
    scanEntries n (entriesText L depth es ++ (pad ++ '\x7d' :: rest)) =
      .ok (PyVal.viaJsonEntries es, rest)
  | [], _, _, _, _, h, _, _, _ => absurd rfl h
  | [(k, x)], depth, n + 1, pad, rest, _, hk, hn, hp => by
      simp only [PyVal.keyedEntries, Bool.and_true] at hk
      have hx := scanOnce_write x depth n (pad ++ '\x7d' :: rest) hk
        (by simp [entriesText, writeEntries] at hn; omega)
        (delimited_append hp (delimited_close (by simp) _))
      have htext : entriesText L depth [(k, x)] ++ (pad ++ '\x7d' :: rest) =
          writeString k ++ ':' :: ' ' :: (write L depth x ++ (pad ++ '\x7d' :: rest)) := by
        simp [entriesText, writeEntries]
      rw [htext, scanEntries, scanKey_append k ((opens_write L depth x).append _)]
      dsimp only
      rw [hx]
      dsimp only
      rw [skipSpace_close (by simp) hp]
      rfl
  | (k, x) :: (k', y) :: es, depth, n + 1, pad, rest, _, hk, hn, hp => by
      have hk' : x.keyed = true ∧ PyVal.keyedEntries ((k', y) :: es) = true := by
        simpa only [PyVal.keyedEntries, Bool.and_eq_true] using hk
      have hx := scanOnce_write x depth n
        (',' :: (L.gap depth ++ (entriesText L depth ((k', y) :: es) ++ (pad ++ '\x7d' :: rest))))
        hk'.1 (by simp [entriesText, writeEntries] at hn; omega) (delimited_close (by simp) _)
      have hes := scanEntries_write ((k', y) :: es) depth n pad rest (by simp) hk'.2
        (by simp [entriesText, writeEntries] at hn ⊢; omega) hp
      have htext : entriesText L depth ((k, x) :: (k', y) :: es) ++ (pad ++ '\x7d' :: rest) =
          writeString k ++ ':' :: ' ' :: (write L depth x ++ (',' :: (L.gap depth ++
            (entriesText L depth ((k', y) :: es) ++ (pad ++ '\x7d' :: rest))))) := by
        simp [entriesText, writeEntries]
      rw [htext, scanEntries, scanKey_append k ((opens_write L depth x).append _)]
      dsimp only
      rw [hx]
      dsimp only
      rw [← List.nil_append (',' :: _), skipSpace_close (by simp) (by simp)]
      dsimp only
      rw [if_neg (by decide), if_pos rfl, (opens_entriesText depth k' y es _).skipSpace
        (L.gap_space _), hes]
      rfl
  | _, _, 0, _, _, _, _, hn, _ => by omega

end

/-- What is written is read back as `viaJson` says. -/
theorem loads_dumps {v : PyVal} (hk : v.keyed = true) : loads (dumps L v) = .ok v.viaJson := by
  have hopens := opens_write L 0 v
  have hskip : skipSpace (dumps L v) = dumps L v :=
    @Opens.skipSpace [] _ hopens (by simp)
  have hscan := scanOnce_write (L := L) v 0 (2 * (dumps L v).length + 1) [] hk (by simp [dumps])
    delimited_nil
  rw [List.append_nil] at hscan
  have hbom : (dumps L v).head? ≠ some '\ufeff' := by
    obtain ⟨c, t, hc, -, -, -, hne⟩ := hopens
    simpa [dumps, hc] using hne
  unfold loads
  rw [if_neg hbom, hskip]
  unfold dumps at hscan ⊢
  rw [hscan]
  rfl

/-- A value at the start of a line with more on it than white space. -/
theorem loads_dumps_append {v : PyVal} (hk : v.keyed = true) {rest : List Char}
    (hr : Delimited rest) (hrest : skipSpace rest ≠ []) :
    loads (dumps L v ++ rest) = .error (.decode "Extra data" (skipSpace rest)) := by
  have hopens := (opens_write L 0 v).append rest
  have hskip : skipSpace (dumps L v ++ rest) = dumps L v ++ rest :=
    @Opens.skipSpace [] _ hopens (by simp)
  have hfuel : 2 * (write L 0 v).length < 2 * (dumps L v ++ rest).length + 1 := by
    rw [dumps, List.length_append]
    omega
  have hscan := scanOnce_write (L := L) v 0 (2 * (dumps L v ++ rest).length + 1) rest hk hfuel hr
  have hbom : (dumps L v ++ rest).head? ≠ some '\ufeff' := by
    obtain ⟨c, t, hc, -, -, -, hne⟩ := hopens
    simpa [dumps, hc] using hne
  unfold loads
  rw [if_neg hbom, hskip]
  unfold dumps at hscan ⊢
  rw [hscan]
  dsimp only
  split
  · next h => exact absurd h hrest
  · rfl

/-! ### Encoding by default -/

mutual

/-- What `json_default` makes of the values of a text makes no difference to
it. -/
theorem write_viaJson : ∀ (v : PyVal) (depth : ℕ), write L depth v.viaJson = write L depth v
  | .scalar s, _ => by
      simp only [PyVal.viaJson, write, writeScalar, jsonDefault_jsonDefault]
  | .list [], _ => rfl
  | .list (x :: xs), depth => by
      simp only [PyVal.viaJson, PyVal.viaJsonList, write, write_viaJson x, writeItems_viaJson xs]
  | .dict [], _ => rfl
  | .dict ((k, x) :: es), depth => by
      simp only [PyVal.viaJson, PyVal.viaJsonEntries, write, write_viaJson x,
        writeEntries_viaJson es]

theorem writeItems_viaJson : ∀ (xs : List PyVal) (depth : ℕ),
    writeItems L depth (PyVal.viaJsonList xs) = writeItems L depth xs
  | [], _ => rfl
  | x :: xs, depth => by
      simp only [PyVal.viaJsonList, writeItems, write_viaJson x, writeItems_viaJson xs]

theorem writeEntries_viaJson : ∀ (es : List (String × PyVal)) (depth : ℕ),
    writeEntries L depth (PyVal.viaJsonEntries es) = writeEntries L depth es
  | [], _ => rfl
  | (k, x) :: es, depth => by
      simp only [PyVal.viaJsonEntries, writeEntries, write_viaJson x, writeEntries_viaJson es]

end

theorem dumps_viaJson (v : PyVal) : dumps L v.viaJson = dumps L v := write_viaJson v 0

mutual

theorem keyed_viaJson : ∀ v : PyVal, v.viaJson.keyed = v.keyed
  | .scalar _ => rfl
  | .list xs => keyedList_viaJson xs
  | .dict es => by
      simp only [PyVal.viaJson, PyVal.keyed, PyVal.keys_viaJsonEntries, keyedEntries_viaJson es]

theorem keyedList_viaJson : ∀ xs : List PyVal,
    PyVal.keyedList (PyVal.viaJsonList xs) = PyVal.keyedList xs
  | [] => rfl
  | x :: xs => by
      simp only [PyVal.viaJsonList, PyVal.keyedList, keyed_viaJson x, keyedList_viaJson xs]

theorem keyedEntries_viaJson : ∀ es : List (String × PyVal),
    PyVal.keyedEntries (PyVal.viaJsonEntries es) = PyVal.keyedEntries es
  | [] => rfl
  | (k, x) :: es => by
      simp only [PyVal.viaJsonEntries, PyVal.keyedEntries, keyed_viaJson x,
        keyedEntries_viaJson es]

end

/-! ### The characters of a text -/

section Chars

variable {P : Char → Prop}

theorem forall_cons {c : Char} {cs : List Char} (hc : P c) (hcs : ∀ d ∈ cs, P d) :
    ∀ d ∈ c :: cs, P d := List.forall_mem_cons.mpr ⟨hc, hcs⟩

theorem forall_append {cs ds : List Char} (hc : ∀ d ∈ cs, P d) (hd : ∀ d ∈ ds, P d) :
    ∀ d ∈ cs ++ ds, P d := List.forall_mem_append.mpr ⟨hc, hd⟩

variable (hP : ∀ c : Char, 0x20 ≤ c.toNat → P c)
include hP

theorem forall_text {n : NumberText} (hn : n.WellFormed) : ∀ c ∈ n.text, P c := by
  have hdigit : ∀ c : Char, c.isDigit = true → P c := by
    intro c hc
    refine hP c ?_
    have h : (48 : ℕ) ≤ c.toNat := by
      have := Char.isDigit_iff_toNat.mp hc
      exact this.1
    omega
  have hint : ∀ c ∈ n.int, P c := by
    rcases hn.int with h | h
    · rw [h]
      simpa using hP '0' (by decide)
    · exact fun c hc => hdigit c (h.digits c hc)
  rw [← List.append_nil n.text, n.text_eq []]
  refine forall_append ?_ (forall_append hint (forall_append ?_ (forall_append ?_ (by simp))))
  · cases n.neg
    · simp
    · simpa using hP '-' (by decide)
  · unfold fracText
    split_ifs
    · simp
    · exact forall_cons (hP '.' (by decide)) fun c hc => hdigit c (hn.frac c hc)
  · cases hexp : n.exp with
    | none => simp [expText]
    | some p =>
        have hdig := (hn.exp p hexp).2
        refine forall_cons (hP 'e' (by decide)) (forall_cons ?_ fun c hc => hdigit c (hdig c hc))
        cases p.1
        · exact hP '+' (by decide)
        · exact hP '-' (by decide)

theorem forall_escapeChar (c : Char) : ∀ d ∈ escapeChar c, P d := by
  unfold escapeChar
  split
  · next e he =>
    refine forall_cons (hP _ (by decide)) (forall_cons ?_ (by simp))
    unfold shortEscape at he
    split_ifs at he <;> (cases he; exact hP _ (by decide))
  · split_ifs with hlt
    · rw [hexDigits_four c.toNat hlt]
      have hdig : ∀ n < 16, P (Nat.digitChar n) := fun n hn =>
        hP _ ((by decide : ∀ n < 16, 0x20 ≤ (Nat.digitChar n).toNat) n hn)
      have h0 := hdig 0 (by decide)
      exact forall_cons (hP _ (by decide)) (forall_cons (hP _ (by decide))
        (forall_cons h0 (forall_cons h0 (forall_cons (hdig _ (by omega))
          (forall_cons (hdig _ (by omega)) (by simp))))))
    · exact forall_cons (hP c (by omega)) (by simp)

theorem forall_writeString (s : String) : ∀ c ∈ writeString s, P c := by
  have hq : P '\x22' := hP _ (by decide)
  refine forall_append (forall_cons hq ?_) (forall_cons hq (by simp))
  intro c hc
  obtain ⟨d, -, hd⟩ := List.mem_flatMap.mp hc
  exact forall_escapeChar hP d c hd

theorem forall_writeScalar (s : PyScalar) : ∀ c ∈ writeScalar s, P c := by
  have hword : ∀ w : List Char, (w.all fun c => 0x20 ≤ c.toNat) = true → ∀ c ∈ w, P c :=
    fun w hw c hc => hP c (by simpa using List.all_eq_true.mp hw c hc)
  unfold writeScalar
  cases s with
  | none => exact hword _ rfl
  | bool b => cases b <;> exact hword _ rfl
  | int n =>
      dsimp only [jsonDefault]
      rw [NumberText.text_ofInt]
      exact forall_text hP (NumberText.wellFormed_ofInt n)
  | float x =>
      cases x with
      | nan => exact hword _ rfl
      | inf neg => cases neg <;> exact hword _ rfl
      | finite x =>
          obtain ⟨n, hn, htext, -⟩ := exists_floatText x
          dsimp only [jsonDefault, writeFloat]
          rw [htext]
          exact forall_text hP hn
  | str t | datetime t | date t | time t | decimal t | uuid t => exact forall_writeString hP _

variable (hL : ∀ depth, (∀ c ∈ L.pad depth, P c) ∧ ∀ c ∈ L.gap depth, P c)
include hL

mutual

/-- Apart from the white space of its layout a text has printable characters
only. -/
theorem forall_write : ∀ (v : PyVal) (depth : ℕ), ∀ c ∈ write L depth v, P c
  | .scalar s, _ => forall_writeScalar hP s
  | .list [], _ => forall_cons (hP _ (by decide)) (forall_cons (hP _ (by decide)) (by simp))
  | .list (x :: xs), depth =>
      forall_cons (hP _ (by decide)) (forall_append (forall_append (forall_append
        (forall_append (hL _).1 (forall_write x _)) (forall_writeItems xs _)) (hL _).1)
        (forall_cons (hP _ (by decide)) (by simp)))
  | .dict [], _ => forall_cons (hP _ (by decide)) (forall_cons (hP _ (by decide)) (by simp))
  | .dict ((k, x) :: es), depth =>
      forall_cons (hP _ (by decide)) (forall_append (forall_append (forall_append
        (forall_append (forall_append (hL _).1 (forall_writeString hP k))
          (forall_cons (hP _ (by decide)) (forall_cons (hP _ (by decide)) (forall_write x _))))
        (forall_writeEntries es _)) (hL _).1) (forall_cons (hP _ (by decide)) (by simp)))

theorem forall_writeItems : ∀ (xs : List PyVal) (depth : ℕ), ∀ c ∈ writeItems L depth xs, P c
  | [], _ => by simp [writeItems]
  | x :: xs, depth =>
      forall_cons (hP _ (by decide)) (forall_append (forall_append (hL _).2 (forall_write x _))
        (forall_writeItems xs _))

theorem forall_writeEntries : ∀ (es : List (String × PyVal)) (depth : ℕ),
    ∀ c ∈ writeEntries L depth es, P c
  | [], _ => by simp [writeEntries]
  | (k, x) :: es, depth =>
      forall_cons (hP _ (by decide)) (forall_append (forall_append (forall_append (hL _).2
        (forall_writeString hP k))
        (forall_cons (hP _ (by decide)) (forall_cons (hP _ (by decide)) (forall_write x _))))
        (forall_writeEntries es _))

end

end Chars

/-- On one line there is no line break. -/
theorem dumps_compact_oneLine (v : PyVal) :
    ∀ c ∈ dumps Layout.compact v, c ≠ '\n' ∧ c ≠ '\r' := by
  refine forall_write (P := fun c => c ≠ '\n' ∧ c ≠ '\r') ?_ ?_ v 0
  · intro c hc
    constructor <;> (rintro rfl; exact absurd hc (by decide))
  · exact fun _ => ⟨by simp [Layout.compact], by simp [Layout.compact]⟩

/-- No layout in use writes a carriage return. -/
theorem dumps_indented_no_cr (n : ℕ) (v : PyVal) :
    ∀ c ∈ dumps (Layout.indented n) v, c ≠ '\r' := by
  refine forall_write (P := fun c => c ≠ '\r') ?_ ?_ v 0
  · rintro c hc rfl
    exact absurd hc (by decide)
  · exact fun _ => ⟨by simp +contextual [Layout.indented], by simp +contextual [Layout.indented]⟩

/-! ### Within the limits -/

section Limits

variable {lim : Limits}

/-- `json.dumps` returns the text just where nothing is refused. -/
theorem encode_eq_ok_iff {L : Layout} {v : PyVal} {cs : List Char} :
    encode L lim v = .ok cs ↔ refused lim lim.depth v = none ∧ cs = dumps L v := by
  rw [encode]
  rcases refused lim lim.depth v with _ | e
  · simp [eq_comm]
  · simp

theorem refusedItems_eq_none {left : ℕ} {xs : List PyVal} :
    refusedItems lim left xs = none ↔ ∀ x ∈ xs, refused lim left x = none := by
  induction xs with
  | nil => simp [refusedItems]
  | cons x xs ih => simp [refusedItems, Option.or_eq_none_iff, ih]

theorem refusedEntries_eq_none {left : ℕ} {es : List (String × PyVal)} :
    refusedEntries lim left es = none ↔ ∀ e ∈ es, refused lim left e.2 = none := by
  induction es with
  | nil => simp [refusedEntries]
  | cons e es ih =>
      obtain ⟨k, x⟩ := e
      simp only [refusedEntries, Option.or_eq_none_iff, ih, List.forall_mem_cons]

theorem refused_list {left : ℕ} {xs : List PyVal} : refused lim (left + 1) (.list xs) = none ↔
    ∀ x ∈ xs, refused lim left x = none := by
  rw [refused, if_neg left.succ_ne_zero, Nat.add_sub_cancel, refusedItems_eq_none]

theorem refused_dict {left : ℕ} {es : List (String × PyVal)} :
    refused lim (left + 1) (.dict es) = none ↔ ∀ e ∈ es, refused lim left e.2 = none := by
  rw [refused, if_neg left.succ_ne_zero, Nat.add_sub_cancel, refusedEntries_eq_none]

@[simp] theorem refused_str (left : ℕ) (s : String) : refused lim left (.str s) = none := rfl

@[simp] theorem refused_bool (left : ℕ) (b : Bool) : refused lim left (.bool b) = none := rfl

@[simp] theorem refused_none (left : ℕ) : refused lim left .none = none := rfl

/-- A scalar that is allowed is allowed at every greater depth left. -/
theorem refusedScalar_mono {s : PyScalar} {left left' : ℕ} (hle : left ≤ left')
    (h : refused lim left (.scalar s) = none) : refused lim left' (.scalar s) = none := by
  cases s with
  | none | bool _ | float _ | str _ => rfl
  | int n => exact h
  | datetime _ | date _ | time _ | decimal _ | uuid _ =>
      have hleft : left ≠ 0 := fun hzero => by simp [refused, hzero] at h
      exact if_neg (by omega)

mutual

/-- With more calls to go nothing else is refused. -/
theorem refused_mono : ∀ (v : PyVal) {left left' : ℕ}, left ≤ left' →
    refused lim left v = none → refused lim left' v = none
  | .scalar s, _, _, hle, h => refusedScalar_mono hle h
  | .list xs, left, left', hle, h => by
      have hleft : left ≠ 0 := fun hzero => by simp [refused, hzero] at h
      rw [refused, if_neg hleft] at h
      rw [refused, if_neg (by omega)]
      exact refusedItems_mono xs (by omega) h
  | .dict es, left, left', hle, h => by
      have hleft : left ≠ 0 := fun hzero => by simp [refused, hzero] at h
      rw [refused, if_neg hleft] at h
      rw [refused, if_neg (by omega)]
      exact refusedEntries_mono es (by omega) h

theorem refusedItems_mono : ∀ (xs : List PyVal) {left left' : ℕ}, left ≤ left' →
    refusedItems lim left xs = none → refusedItems lim left' xs = none
  | [], _, _, _, _ => rfl
  | x :: xs, left, left', hle, h => by
      rw [refusedItems, Option.or_eq_none_iff] at h ⊢
      exact ⟨refused_mono x hle h.1, refusedItems_mono xs hle h.2⟩

theorem refusedEntries_mono : ∀ (es : List (String × PyVal)) {left left' : ℕ}, left ≤ left' →
    refusedEntries lim left es = none → refusedEntries lim left' es = none
  | [], _, _, _, _ => rfl
  | (_, x) :: es, left, left', hle, h => by
      rw [refusedEntries, Option.or_eq_none_iff] at h ⊢
      exact ⟨refused_mono x hle h.1, refusedEntries_mono es hle h.2⟩

end

mutual

/-- What was written and read may be written again. -/
theorem refused_viaJson : ∀ (v : PyVal) {left : ℕ}, refused lim left v = none →
    refused lim left v.viaJson = none
  | .scalar s, _, h => by
      cases s with
      | none | bool _ | float _ | int _ | str _ => exact h
      | datetime _ | date _ | time _ | decimal _ | uuid _ => rfl
  | .list xs, left, h => by
      have hleft : left ≠ 0 := fun hzero => by simp [refused, hzero] at h
      rw [refused, if_neg hleft] at h
      rw [PyVal.viaJson, refused, if_neg hleft]
      exact refusedItems_viaJson xs h
  | .dict es, left, h => by
      have hleft : left ≠ 0 := fun hzero => by simp [refused, hzero] at h
      rw [refused, if_neg hleft] at h
      rw [PyVal.viaJson, refused, if_neg hleft]
      exact refusedEntries_viaJson es h

theorem refusedItems_viaJson : ∀ (xs : List PyVal) {left : ℕ}, refusedItems lim left xs = none →
    refusedItems lim left (PyVal.viaJsonList xs) = none
  | [], _, _ => rfl
  | x :: xs, left, h => by
      rw [refusedItems, Option.or_eq_none_iff] at h
      rw [PyVal.viaJsonList, refusedItems, Option.or_eq_none_iff]
      exact ⟨refused_viaJson x h.1, refusedItems_viaJson xs h.2⟩

theorem refusedEntries_viaJson : ∀ (es : List (String × PyVal)) {left : ℕ},
    refusedEntries lim left es = none →
    refusedEntries lim left (PyVal.viaJsonEntries es) = none
  | [], _, _ => rfl
  | (_, x) :: es, left, h => by
      rw [refusedEntries, Option.or_eq_none_iff] at h
      rw [PyVal.viaJsonEntries, refusedEntries, Option.or_eq_none_iff]
      exact ⟨refused_viaJson x h.1, refusedEntries_viaJson es h.2⟩

end

end Limits

end PyJson
