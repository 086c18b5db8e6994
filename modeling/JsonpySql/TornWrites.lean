/-
JsonpySql/TornWrites.lean

Appends that break off.

A line is appended with one `write`; a process that dies in it leaves a prefix
of the bytes of the line.  `torn_append` says what the document file is from
then on, whatever is appended after it: as if nothing had been written, as if
the line had, or unreadable, and then either a line that does not parse or
bytes that do not decode.  A line that lacks only its line feed is read until
the next append joins it.

`torn_log` says the same of a log and what the next opening makes of it: replay
of the operations before the line, of all of them, no operation at all, or an
exception that opening does not catch.
-/
import JsonpySql.TextRuns

namespace JsonpySql

open PyJson

theorem length_lineBytes (l : List Char) : (lineBytes l).length = (utf8 l).length + 1 := by
  have h : utf8 ['\n'] = [10] := rfl
  rw [lineBytes, lineText, utf8_append, h, List.length_append]
  rfl

theorem take_lineBytes {l : List Char} {n : ℕ} (hn : n ≤ (utf8 l).length) :
    (lineBytes l).take n = (utf8 l).take n := by
  rw [lineBytes, lineText, utf8_append, List.take_append_of_le_length hn]

/-- The first bytes of a line end inside a character. -/
def SplitsChar (l : List Char) (n : ℕ) : Prop := decodeUtf8 ((utf8 l).take n) = none

instance (l : List Char) (n : ℕ) : Decidable (SplitsChar l n) := inferInstanceAs (Decidable (_ = _))

/-- A cut either leaves some of the characters, or bytes that never decode. -/
theorem cut_cases {l : List Char} {n : ℕ} (h0 : 0 < n) (hn : n ≤ (utf8 l).length) :
    (¬ SplitsChar l n ∧ ∃ p, (utf8 l).take n = utf8 p ∧ p <+: l ∧ p ≠ [] ∧
        (n < (utf8 l).length → p ≠ l)) ∨
      (SplitsChar l n ∧ ∀ s t, decodeUtf8 (utf8 s ++ (utf8 l).take n ++ utf8 t) = none) := by
  have hlen : ((utf8 l).take n).length = n := by rw [List.length_take]; omega
  rcases take_utf8_cases l n with ⟨k, hk⟩ | ⟨k, c, p, q, hk, hc, hp, hq⟩
  · refine .inl ⟨?_, l.take k, hk, List.take_prefix k l, ?_, ?_⟩
    · rw [SplitsChar, hk, decodeUtf8_utf8]
      simp
    · intro hnil
      rw [hk, hnil, utf8_nil, List.length_nil] at hlen
      omega
    · intro hlt heq
      rw [hk, heq] at hlen
      omega
  · have hnone : ∀ s t, decodeUtf8 (utf8 s ++ (utf8 l).take n ++ utf8 t) = none := by
      intro s t
      have hsplit : utf8 s ++ (utf8 l).take n ++ utf8 t = utf8 (s ++ l.take k) ++ p ++ utf8 t := by
        rw [hk, utf8_append]
        simp only [List.append_assoc]
      rw [hsplit, decodeUtf8_cut hc hp hq]
    refine .inr ⟨?_, hnone⟩
    simpa [SplitsChar] using hnone [] []

/-! ### Document files -/

theorem Record.isObject_text {r : Record} (h : r.Keyed) : IsObject r.text := isObject_dumps _ h

/-- The rows of a file up to a line that does not parse. -/
theorem mapM_parse_error {ls : List (List Char)} {rows : List Record} {path : String}
    {e : TextErr} {l : List Char} (h : ls.map Record.ofLine = rows.map some)
    (hl : DocumentStore.parse path l = .error e) (rest : List (List Char)) :
    (ls ++ l :: rest).mapM (DocumentStore.parse path) = .error e := by
  rw [List.mapM_append, mapM_parse path h, List.mapM_cons, hl]
  rfl

/-- A text that does not load is reported as a corrupt line. -/
theorem DocumentStore.parse_of_loads {l : List Char} (h : ∀ v, loads l ≠ .ok v) (path : String) :
    ∃ msg, DocumentStore.parse path l =
      .error (.raised (.storageError ("Corrupt line in " ++ path ++ ": " ++ msg))) := by
  unfold DocumentStore.parse
  rcases hl : loads l with ⟨msg, rest⟩ | v
  · exact ⟨decodeErrorStr l msg rest, rfl⟩
  · exact absurd hl (loads_ne_fuel l)
  · exact absurd hl (h v)

/-- Two objects on one line do not load. -/
theorem loads_joined {r m : Record} (hr : r.Keyed) (hm : m.Keyed) (v : PyVal) :
    loads (r.text ++ m.text) ≠ .ok v := by
  obtain ⟨inner, hinner, -⟩ := Record.isObject_text hm
  have hspace : skipSpace m.text ≠ [] := by
    rw [hinner, skipSpace, List.dropWhile_cons_of_neg (by decide)]
    exact List.cons_ne_nil _ _
  have hdelim : Delimited m.text := by
    rw [hinner]
    rintro c ⟨⟩
    decide
  rw [Record.text, loads_dumps_append hr hdelim hspace]
  rintro ⟨⟩

section TornAppend

variable {bytes : List UInt8} {rows more : List Record} {r : Record} {n : ℕ}

/-- A broken line, as far as it has characters, with what is appended to it. -/
theorem readText_broken (h : Framed Record.ofLine bytes rows) (hr : r.Keyed)
    (hmore : ∀ m ∈ more, m.Keyed) {p : List Char} (hp : p <+: r.text) (hne : p ≠ [])
    (hbad : p ≠ r.text ∨ more ≠ []) (path : String) :
    ∃ msg, DocumentStore.readText path (bytes ++ utf8 p ++ rowBytes more) =
      .error (.raised (.storageError ("Corrupt line in " ++ path ++ ": " ++ msg))) := by
  obtain ⟨ls, rfl, hrows, hls⟩ := h
  have hone : ∀ l ∈ ls, OneLine l := fun l hl => (hls l hl).1
  have hfilter : ls.filter (fun l => l ≠ []) = ls :=
    List.filter_eq_self.mpr fun l hl => by simpa using (hls l hl).2
  cases more with
  | nil =>
      have hlt : p ≠ r.text := hbad.resolve_right (by simp)
      obtain ⟨msg, hmsg⟩ := DocumentStore.parse_of_loads (l := p)
        (fun v hv => loads_broken (Record.isObject_text hr) hp hne hlt (.inl rfl) v
          (by rwa [List.append_nil])) path
      refine ⟨msg, ?_⟩
      have hread := readLines_unfinished hone (r.text_oneLine.of_prefix hp) hne
      rw [utf8_append] at hread
      unfold DocumentStore.readText
      rw [rowBytes, List.map_nil, List.flatMap_nil, utf8_nil, List.append_nil, hread]
      dsimp only
      rw [List.filter_append, hfilter, List.filter_cons_of_pos (by simpa using hne)]
      exact mapM_parse_error hrows hmsg _
  | cons m more =>
      have hm : m.Keyed := hmore m (by simp)
      -- the first line appended is read as the end of the broken one
      have hjoin : ∀ v, loads (p ++ m.text) ≠ .ok v := by
        intro v
        by_cases hlt : p = r.text
        · rw [hlt]
          exact loads_joined hr hm v
        · exact loads_broken (Record.isObject_text hr) hp hne hlt (.inr (Record.isObject_text hm)) v
      obtain ⟨msg, hmsg⟩ := DocumentStore.parse_of_loads hjoin path
      refine ⟨msg, ?_⟩
      have hlines : ∀ l ∈ ls ++ (p ++ m.text) :: more.map Record.text, OneLine l := by
        intro l hl
        rcases List.mem_append.mp hl with hl | hl
        · exact hone l hl
        · rcases List.mem_cons.mp hl with rfl | hl
          · exact (r.text_oneLine.of_prefix hp).append m.text_oneLine
          · obtain ⟨m', -, rfl⟩ := List.mem_map.mp hl
            exact m'.text_oneLine
      have hread := readLines_flatMap hlines
      have hbytes : utf8 ((ls ++ (p ++ m.text) :: more.map Record.text).flatMap lineText) =
          utf8 (ls.flatMap lineText) ++ utf8 p ++ rowBytes (m :: more) := by
        simp [rowBytes, lineText, utf8_append]
      rw [hbytes] at hread
      unfold DocumentStore.readText
      rw [hread]
      dsimp only
      rw [List.filter_append, hfilter, List.filter_cons_of_pos (by simp [hne])]
      exact mapM_parse_error hrows hmsg _

/-- **A torn append.**  The file is readable again just if nothing of the line
was written, or all of it, or all but the line feed and nothing since; else
reading raises, forever. -/
theorem torn_append (h : Framed Record.ofLine bytes rows) (hr : r.Keyed)
    (hmore : ∀ m ∈ more, m.Keyed) (path : String) :
    let read := DocumentStore.readText path (bytes ++ (lineBytes r.text).take n ++ rowBytes more)
    let size := (utf8 r.text).length
    (n = 0 → read = .ok (rows ++ more)) ∧
      (size < n → read = .ok (rows ++ r :: more)) ∧
      (n = size → more = [] → read = .ok (rows ++ [r])) ∧
      (0 < n → n ≤ size → n < size ∨ more ≠ [] →
        if SplitsChar r.text n then read = .error .unicodeDecode
        else ∃ msg, read =
          .error (.raised (.storageError ("Corrupt line in " ++ path ++ ": " ++ msg)))) := by
  have hline : Record.ofLine r.text = some r :=
    (Record.ofLine_eq_some_iff "").mpr (DocumentStore.parse_text hr "")
  have hwhole : r.text ≠ [] := r.text_ne_nil
  refine ⟨?_, ?_, ?_, ?_⟩
  · rintro rfl
    rw [List.take_zero, List.append_nil]
    exact (framed_appendRows h hmore).readText path
  · intro hn
    have htake : (lineBytes r.text).take n = lineBytes r.text :=
      List.take_of_length_le (by rw [length_lineBytes]; omega)
    rw [htake, List.append_cons rows]
    exact (framed_appendRows (h.append ⟨r.text_oneLine, hwhole⟩ hline) hmore).readText path
  · rintro rfl rfl
    obtain ⟨ls, rfl, hrows, hls⟩ := h
    have hread := readLines_unfinished (fun l hl => (hls l hl).1) r.text_oneLine hwhole
    rw [utf8_append] at hread
    have hall : (ls ++ [r.text]).map Record.ofLine = (rows ++ [r]).map some := by
      simp [hrows, hline]
    have hfilter : (ls ++ [r.text]).filter (fun l => l ≠ []) = ls ++ [r.text] := by
      refine List.filter_eq_self.mpr fun l hl => ?_
      rcases List.mem_append.mp hl with hl | hl
      · simpa using (hls l hl).2
      · simpa [List.mem_singleton.mp hl] using hwhole
    rw [take_lineBytes le_rfl, List.take_length]
    unfold DocumentStore.readText
    rw [rowBytes, List.map_nil, List.flatMap_nil, utf8_nil, List.append_nil, hread]
    dsimp only
    rw [hfilter, mapM_parse path hall]
  · intro h0 hn hbad
    rw [take_lineBytes hn]
    rcases cut_cases h0 hn with ⟨hchar, p, hp, hpre, hne, hlt⟩ | ⟨hchar, hnone⟩
    · rw [if_neg hchar, hp]
      exact readText_broken h hr hmore hpre hne (hbad.imp_left hlt) path
    · rw [if_pos hchar]
      obtain ⟨ls, rfl, -, -⟩ := h
      unfold DocumentStore.readText readLines
      rw [rowBytes, hnone]
      rfl

/-- A row with a character of two bytes. -/
def accented : Record := Record.ofDoc "1" (OrdDict.ofList [("name", .str "é")])

theorem accented_keyed : accented.Keyed := by decide

theorem accented_split : SplitsChar accented.text 11 := by
  have htake : (utf8 accented.text).take 11 = utf8 (accented.text.take 10) ++ [0xc3] ++ utf8 [] :=
    by decide
  rw [SplitsChar, htake]
  exact decodeUtf8_cut (c := 'é') (q := [0xa9]) (by decide) (by decide) (by decide) _ _

/-- Its append breaks off inside that character, and another client appends the
next row: the row before it is lost too. -/
theorem accented_torn :
    DocumentStore.readText "db/users.jsonl"
        (rowBytes [Record.ofDoc "0" OrdDict.empty] ++ (lineBytes accented.text).take 11 ++
          rowBytes [Record.ofDoc "2" OrdDict.empty]) = .error .unicodeDecode := by
  have hrows : ∀ r ∈ [Record.ofDoc "0" OrdDict.empty], r.Keyed := by decide
  have hmore : ∀ r ∈ [Record.ofDoc "2" OrdDict.empty], r.Keyed := by decide
  have h := (torn_append (n := 11) (framed_appendRows framed_nil hrows) accented_keyed hmore
    "db/users.jsonl").2.2.2 (by decide) (by decide) (.inl (by decide))
  rwa [if_pos accented_split] at h

end TornAppend

/-! ### Logs -/

/-- What `_recover_wal` does with a log. -/
inductive LogFate
  | replayed (entries : List WALEntry)
  | discarded
  | raised (e : TextErr)

/-- The first half of the loop of `_recover_wal`, on the bytes of a log: only a
`WALReplayError` is caught. -/
def logFate (path : String) (bytes : List UInt8) : LogFate :=
  match WAL.readText path bytes with
  | .ok entries => .replayed entries
  | .error (.raised (.walReplayError _)) => .discarded
  | .error e => .raised e

theorem WAL.parse_of_loads {l : List Char} (h : ∀ v, loads l ≠ .ok v) :
    ∃ msg, WAL.parse l = some (.corrupt msg) := by
  unfold WAL.parse
  rcases hl : loads l with ⟨msg, rest⟩ | v
  · exact ⟨decodeErrorStr l msg rest, rfl⟩
  · exact absurd hl (loads_ne_fuel l)
  · exact absurd hl (h v)

theorem WALEntry.isObject_text {e : WALEntry} (h : e.Keyed) : IsObject e.text := isObject_dumps _ h

/-- A log whose last line lacks its line feed. -/
theorem readText_unfinished {bytes : List UInt8} {lines : List WalLine} {p : List Char}
    {line : WalLine} (h : Framed WAL.parse bytes lines) (hp : OneLine p) (hne : p ≠ [])
    (hline : WAL.parse p = some line) (path : String) :
    WAL.readText path (bytes ++ utf8 p) =
      ((WAL.parseLines path (lines ++ [line]) 1 OrdDict.empty).map OrdDict.values).mapError
        .raised := by
  obtain ⟨ls, rfl, hrows, hls⟩ := h
  have hread := readLines_unfinished (fun l hl => (hls l hl).1) hp hne
  rw [utf8_append] at hread
  have hall : (ls ++ [p]).map WAL.parse = (lines ++ [line]).map some := by
    simp [hrows, hline]
  have hnonempty : ∀ l ∈ ls ++ [p], l ≠ [] := by
    intro l hl
    rcases List.mem_append.mp hl with hl | hl
    · exact (hls l hl).2
    · exact (List.mem_singleton.mp hl) ▸ hne
  unfold WAL.readText
  rw [hread]
  dsimp only
  rw [parseText_eq path hall hnonempty]
  cases WAL.parseLines path (lines ++ [line]) 1 OrdDict.empty <;> rfl

theorem parseLines_corrupt (path : String) (entries : List WALEntry) (msg : String) (lineno : ℕ)
    (m : OrdDict (String × String) WALEntry) :
    ∃ text, WAL.parseLines path (entries.map .entry ++ [.corrupt msg]) lineno m =
      .error (.walReplayError text) := by
  induction entries generalizing lineno m with
  | nil => exact ⟨_, rfl⟩
  | cons e entries ih => exact ih _ _

/-- A log of entries is replayed. -/
theorem logFate_of_entries {path : String} {bytes : List UInt8} {entries : List WALEntry}
    (h : WAL.readText path bytes =
      ((WAL.parseLines path (entries.map .entry) 1 OrdDict.empty).map OrdDict.values).mapError
        .raised) : logFate path bytes = .replayed (WAL.dedup entries) := by
  unfold logFate
  rw [h, WAL.parseLines_entries]
  rfl

/-- **A torn log.**  Opening replays the operations before a line of which
nothing was written, and all of them where only the line feed is missing.  Any
other cut loses the whole log where it falls between two characters; where it
falls inside one, opening raises and leaves the log. -/
theorem torn_log {bytes : List UInt8} {entries : List WALEntry} {e : WALEntry} {n : ℕ}
    (h : Framed WAL.parse bytes (entries.map .entry)) (he : e.Keyed) (path : String) :
    let fate := logFate path (bytes ++ (lineBytes e.text).take n)
    let size := (utf8 e.text).length
    (n = 0 → fate = .replayed (WAL.dedup entries)) ∧
      (size ≤ n → fate = .replayed (WAL.dedup (entries ++ [e.viaJson]))) ∧
      (0 < n → n < size →
        fate = if SplitsChar e.text n then .raised .unicodeDecode else .discarded) := by
  have hline := WAL.parse_text he
  obtain ⟨hone, hwhole⟩ := e.text_oneLine
  refine ⟨?_, ?_, ?_⟩
  · rintro rfl
    rw [List.take_zero, List.append_nil]
    exact logFate_of_entries (h.readText_wal path)
  · intro hn
    refine logFate_of_entries ?_
    rw [List.map_append, List.map_singleton]
    rcases Nat.lt_or_ge (utf8 e.text).length n with hlt | hge
    · rw [List.take_of_length_le (by rw [length_lineBytes]; omega)]
      exact (h.append ⟨hone, hwhole⟩ hline).readText_wal path
    · obtain rfl : n = (utf8 e.text).length := by omega
      rw [take_lineBytes le_rfl, List.take_length]
      exact readText_unfinished h hone hwhole hline path
  · intro h0 hn
    rw [take_lineBytes hn.le]
    rcases cut_cases h0 hn.le with ⟨hchar, p, hp, hpre, hne, hlt⟩ | ⟨hchar, hnone⟩
    · obtain ⟨msg, hmsg⟩ := WAL.parse_of_loads (l := p) fun v hv =>
        loads_broken (WALEntry.isObject_text he) hpre hne (hlt hn) (.inl rfl) v
          (by rwa [List.append_nil])
      obtain ⟨text, htext⟩ := parseLines_corrupt path entries msg 1 OrdDict.empty
      rw [if_neg hchar, hp, logFate, readText_unfinished h (hone.of_prefix hpre) hne hmsg, htext]
      rfl
    · rw [if_pos hchar]
      obtain ⟨ls, rfl, -, -⟩ := h
      have hdec := hnone (ls.flatMap lineText) []
      rw [utf8_nil, List.append_nil] at hdec
      unfold logFate WAL.readText readLines
      rw [hdec]
      rfl

/-- The third operation of a transaction breaks off after its first character:
the two before it are not replayed either. -/
theorem delete_torn :
    let entries : List WALEntry :=
      [⟨.insert, "users", "1", some OrdDict.empty⟩, ⟨.insert, "users", "2", some OrdDict.empty⟩]
    let last : WALEntry := ⟨.delete, "users", "1", none⟩
    let bytes := (entries.map WALEntry.text).flatMap lineBytes
    logFate "db/t.wal" (bytes ++ (lineBytes last.text).take 0) = .replayed entries ∧
      logFate "db/t.wal" (bytes ++ (lineBytes last.text).take 1) = .discarded := by
  intro entries last bytes
  have hsplit : ¬ SplitsChar last.text 1 := by
    have htake : (utf8 last.text).take 1 = utf8 ['\x7b'] := by decide
    rw [SplitsChar, htake, decodeUtf8_utf8]
    simp
  have hframed : Framed WAL.parse bytes ((entries.map WALEntry.viaJson).map .entry) :=
    framed_entries (by decide)
  have hlast : last.Keyed := by decide
  constructor
  · exact (torn_log (n := 0) hframed hlast "db/t.wal").1 rfl
  · have h := (torn_log (n := 1) hframed hlast "db/t.wal").2.2 (by decide) (by decide)
    rwa [if_neg hsplit] at h

end JsonpySql
