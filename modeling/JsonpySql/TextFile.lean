/-
JsonpySql/TextFile.lean

Text files of lines: bytes that decode as UTF-8, and lines that end in a line
feed.

A writer that stops in the middle of a line leaves a prefix of its bytes.  The
prefix may end inside a character; then the file does not decode, whatever text
is written after it (`decodeUtf8_cut`).  If it ends between two characters the
file decodes (`take_utf8_cases`), and what follows is read as part of the
broken line.
-/
import Mathlib.Data.List.Basic

/-! ### UTF-8 -/

/-- The bytes of a text. -/
def utf8 (cs : List Char) : List UInt8 := cs.flatMap String.utf8EncodeChar

/-- The strict decoder: no text where the bytes are not those of one. -/
def decodeUtf8 (bytes : List UInt8) : Option (List Char) :=
  bytes.toByteArray.utf8Decode?.map Array.toList

@[simp] theorem utf8_nil : utf8 [] = [] := rfl

theorem utf8_cons (c : Char) (cs : List Char) :
    utf8 (c :: cs) = String.utf8EncodeChar c ++ utf8 cs := rfl

theorem utf8_append (cs ds : List Char) : utf8 (cs ++ ds) = utf8 cs ++ utf8 ds :=
  List.flatMap_append

theorem toByteArray_utf8 (cs : List Char) : (utf8 cs).toByteArray = cs.utf8Encode := rfl

@[simp] theorem decodeUtf8_utf8 (cs : List Char) : decodeUtf8 (utf8 cs) = some cs := by
  rw [decodeUtf8, toByteArray_utf8, List.utf8Decode?_utf8Encode]
  rfl

theorem toByteArray_injective {a b : List UInt8} (h : a.toByteArray = b.toByteArray) : a = b := by
  have := congrArg (fun x : ByteArray => x.data.toList) h
  simpa using this

/-- What decodes is the encoding of its text. -/
theorem eq_utf8_of_decodeUtf8 {bytes : List UInt8} {cs : List Char}
    (h : decodeUtf8 bytes = some cs) : bytes = utf8 cs := by
  obtain ⟨a, ha, rfl⟩ := Option.map_eq_some_iff.mp h
  have hsome : bytes.toByteArray.utf8Decode?.isSome := by rw [ha]; rfl
  have henc := ByteArray.utf8Encode_get_utf8Decode? (h := hsome)
  simp only [ha, Option.get_some] at henc
  exact toByteArray_injective (henc.symm.trans (toByteArray_utf8 _).symm)

/-- A text whose encoding starts another encoding starts the other text. -/
theorem prefix_of_utf8_append {cs ds : List Char} {bytes : List UInt8}
    (h : utf8 cs ++ bytes = utf8 ds) : cs <+: ds := by
  have hb := congrArg List.toByteArray h
  rw [List.toByteArray_append, toByteArray_utf8, toByteArray_utf8] at hb
  exact List.isPrefix_of_utf8Encode_append_eq_utf8Encode _ hb

/-! ### Bytes of one character -/

/-- The bytes that only continue a character. -/
def Continues (b : UInt8) : Prop := 0x80 ≤ b.toNat ∧ b.toNat < 0xc0

/-- How many bytes follow a leading byte. -/
def following (b : UInt8) : ℕ :=
  if b.toNat < 0xc0 then 0 else if b.toNat < 0xe0 then 1 else if b.toNat < 0xf0 then 2 else 3

/-- A character is a leading byte and as many bytes as that announces. -/
theorem utf8EncodeChar_spec (c : Char) : ∃ b bs, String.utf8EncodeChar c = b :: bs ∧
    bs.length = following b ∧ ¬ Continues b ∧ ∀ b' ∈ bs, Continues b' := by
  have hc : c.val.toNat < 0x110000 := by
    have := c.valid
    rcases this with h | ⟨-, h⟩
    · exact Nat.lt_trans h (by decide)
    · exact h
  unfold String.utf8EncodeChar
  dsimp only
  generalize c.val.toNat = v at hc
  split_ifs with h₁ h₂ h₃
  all_goals
    refine ⟨_, _, rfl, ?_, ?_, ?_⟩
    · simp only [following, UInt8.toNat_ofNat', List.length_cons, List.length_nil]
      split_ifs <;> omega
    · simp only [Continues, UInt8.toNat_ofNat']
      omega
    · simp [Continues]
      try omega

/-! ### Cutting a text -/

/-- A text never starts with a byte that continues a character. -/
theorem head_utf8 {cs : List Char} {b : UInt8} (h : (utf8 cs).head? = some b) : ¬ Continues b := by
  cases cs with
  | nil => simp at h
  | cons c cs =>
      obtain ⟨b', bs, hb, -, hcont, -⟩ := utf8EncodeChar_spec c
      rw [utf8_cons, hb] at h
      cases h
      exact hcont

/-- The start of a character and no more is no text, nor with a text after
it. -/
theorem broken_char {c : Char} {p q : List UInt8} (hc : String.utf8EncodeChar c = p ++ q)
    (hp : p ≠ []) (hq : q ≠ []) (t m : List Char) : p ++ utf8 t ≠ utf8 m := by
  intro h
  obtain ⟨b, bs, hb, hlen, -, -⟩ := utf8EncodeChar_spec c
  rw [hb] at hc
  obtain ⟨p', rfl, rfl⟩ : ∃ p', p = b :: p' ∧ bs = p' ++ q := by
    cases p with
    | nil => exact absurd rfl hp
    | cons a p' =>
        rw [List.cons_append, List.cons.injEq] at hc
        exact ⟨p', by rw [hc.1], hc.2⟩
  -- the first character of the text announces as many bytes as `c` has
  cases m with
  | nil => cases h
  | cons d m =>
      obtain ⟨b', bs', hb', hlen', -, hcont'⟩ := utf8EncodeChar_spec d
      rw [utf8_cons, hb', List.cons_append, List.cons_append, List.cons.injEq] at h
      obtain ⟨rfl, h⟩ := h
      have hpos := List.length_pos_iff.mpr hq
      have hlt : p'.length < bs'.length := by
        rw [hlen', ← hlen, List.length_append]
        omega
      -- so the byte after the cut continues a character
      have hget := congrArg (fun l => l[p'.length]?) h
      simp only [List.getElem?_append_right (Nat.le_refl _), Nat.sub_self,
        List.getElem?_append_left hlt] at hget
      rw [List.getElem?_eq_getElem hlt, ← List.head?_eq_getElem?] at hget
      exact head_utf8 hget (hcont' _ (List.getElem_mem hlt))

/-- A cut falls between two characters or inside one. -/
theorem take_utf8_cases (cs : List Char) (n : ℕ) :
    (∃ k, (utf8 cs).take n = utf8 (cs.take k)) ∨
      ∃ k c p q, (utf8 cs).take n = utf8 (cs.take k) ++ p ∧
        String.utf8EncodeChar c = p ++ q ∧ p ≠ [] ∧ q ≠ [] := by
  induction cs generalizing n with
  | nil => exact .inl ⟨0, by simp⟩
  | cons c cs ih =>
      rcases Nat.lt_or_ge n (String.utf8EncodeChar c).length with hn | hn
      · rcases n.eq_zero_or_pos with rfl | hpos
        · exact .inl ⟨0, by simp⟩
        · refine .inr ⟨0, c, (String.utf8EncodeChar c).take n, (String.utf8EncodeChar c).drop n,
            ?_, (List.take_append_drop _ _).symm, ?_, ?_⟩
          · rw [utf8_cons, List.take_append_of_le_length (Nat.le_of_lt hn)]
            rfl
          · simp; omega
          · simpa using hn
      · have htake : (utf8 (c :: cs)).take n = String.utf8EncodeChar c ++
            (utf8 cs).take (n - (String.utf8EncodeChar c).length) := by
          rw [utf8_cons, List.take_append, List.take_of_length_le hn]
        rcases ih (n - (String.utf8EncodeChar c).length) with ⟨k, hk⟩ | ⟨k, d, p, q, hk, hd⟩
        · exact .inl ⟨k + 1, by rw [htake, hk, List.take_succ_cons, utf8_cons]⟩
        · exact .inr ⟨k + 1, d, p, q,
            by rw [htake, hk, List.take_succ_cons, utf8_cons, List.append_assoc], hd⟩

/-- Bytes that break off inside a character do not decode, whatever text comes
before and after them. -/
theorem decodeUtf8_cut {c : Char} {p q : List UInt8} (hc : String.utf8EncodeChar c = p ++ q)
    (hp : p ≠ []) (hq : q ≠ []) (s t : List Char) :
    decodeUtf8 (utf8 s ++ p ++ utf8 t) = none := by
  by_contra hne
  obtain ⟨m, hm⟩ := Option.ne_none_iff_exists'.mp hne
  have henc := eq_utf8_of_decodeUtf8 hm
  rw [List.append_assoc] at henc
  obtain ⟨m', rfl⟩ := prefix_of_utf8_append henc
  rw [utf8_append, List.append_cancel_left_eq] at henc
  exact broken_char hc hp hq t m' henc

/-! ### Lines -/

/-- Universal newlines: a carriage return, alone or before a line feed, is read
as a line feed. -/
def universalNewlines : List Char → List Char
  | [] => []
  | '\r' :: '\n' :: cs => '\n' :: universalNewlines cs
  | '\r' :: cs => '\n' :: universalNewlines cs
  | c :: cs => c :: universalNewlines cs

/-- The lines of a text without their line feeds; the last one may lack its
own. -/
def fileLines : List Char → List (List Char)
  | [] => []
  | c :: cs =>
      if c = '\n' then [] :: fileLines cs
      else
        match fileLines cs with
        | [] => [[c]]
        | l :: ls => (c :: l) :: ls

/-- `for line in fh`, on the bytes of a file: `none` where they do not decode. -/
def readLines (bytes : List UInt8) : Option (List (List Char)) :=
  (decodeUtf8 bytes).map fun cs => fileLines (universalNewlines cs)

/-- A line as it is written. -/
def lineText (l : List Char) : List Char := l ++ ['\n']

/-- Free of line breaks. -/
def OneLine (l : List Char) : Prop := ∀ c ∈ l, c ≠ '\n' ∧ c ≠ '\r'

theorem OneLine.of_prefix {l p : List Char} (h : OneLine l) (hp : p <+: l) : OneLine p :=
  fun c hc => h c (hp.subset hc)

theorem OneLine.append {l l' : List Char} (h : OneLine l) (h' : OneLine l') :
    OneLine (l ++ l') := by
  intro c hc
  rcases List.mem_append.mp hc with hc | hc
  · exact h c hc
  · exact h' c hc

theorem universalNewlines_cons {c : Char} (h : c ≠ '\r') (cs : List Char) :
    universalNewlines (c :: cs) = c :: universalNewlines cs := by
  rw [universalNewlines]
  · exact fun _ hc => absurd hc h
  · exact h

theorem universalNewlines_append {l : List Char} (h : OneLine l) (cs : List Char) :
    universalNewlines (l ++ cs) = l ++ universalNewlines cs := by
  induction l with
  | nil => rfl
  | cons c l ih =>
      have hc : c ≠ '\r' := (h c (by simp)).2
      have ih' := ih fun d hd => h d (by simp [hd])
      rw [List.cons_append, universalNewlines_cons hc, ih', List.cons_append]

theorem fileLines_append {l : List Char} (h : OneLine l) (cs : List Char) :
    fileLines (l ++ '\n' :: cs) = l :: fileLines cs := by
  induction l with
  | nil => rfl
  | cons c l ih =>
      have hc : c ≠ '\n' := (h c (by simp)).1
      rw [List.cons_append, fileLines, if_neg hc, ih fun d hd => h d (by simp [hd])]

theorem fileLines_oneLine {l : List Char} (h : OneLine l) (hne : l ≠ []) :
    fileLines l = [l] := by
  induction l with
  | nil => exact absurd rfl hne
  | cons c l ih =>
      have hc : c ≠ '\n' := (h c (by simp)).1
      rw [fileLines, if_neg hc]
      rcases l.eq_nil_or_concat with rfl | hl
      · rfl
      · have hl' : l ≠ [] := by rintro rfl; simp at hl
        rw [ih (fun d hd => h d (by simp [hd])) hl']

/-- Whole lines are read as they were written, whatever follows them. -/
theorem fileLines_flatMap {ls : List (List Char)} (h : ∀ l ∈ ls, OneLine l) (cs : List Char) :
    fileLines (universalNewlines (ls.flatMap lineText ++ cs)) =
      ls ++ fileLines (universalNewlines cs) := by
  induction ls with
  | nil => rfl
  | cons l ls ih =>
      have ih' := ih fun l' hl' => h l' (by simp [hl'])
      rw [List.flatMap_cons, lineText, List.append_assoc, List.append_assoc,
        universalNewlines_append (h l (by simp)), List.singleton_append,
        universalNewlines_cons (by decide), fileLines_append (h l (by simp)), ih', List.cons_append]

theorem readLines_flatMap {ls : List (List Char)} (h : ∀ l ∈ ls, OneLine l) :
    readLines (utf8 (ls.flatMap lineText)) = some ls := by
  have hlines := fileLines_flatMap h []
  rw [List.append_nil] at hlines
  rw [readLines, decodeUtf8_utf8, Option.map_some, hlines]
  simp [universalNewlines, fileLines]

/-- A last line without its line feed is read as a line. -/
theorem readLines_unfinished {ls : List (List Char)} (h : ∀ l ∈ ls, OneLine l) {p : List Char}
    (hp : OneLine p) (hne : p ≠ []) :
    readLines (utf8 (ls.flatMap lineText ++ p)) = some (ls ++ [p]) := by
  have hself : universalNewlines p = p := by
    simpa [universalNewlines] using universalNewlines_append hp []
  rw [readLines, decodeUtf8_utf8, Option.map_some, fileLines_flatMap h, hself,
    fileLines_oneLine hp hne]
