/-
JsonpySql/FileReads.lean

One file, two loops.

`get` folds the lines into one result, `scan` into a dictionary of all ids.
Both come to the same table (`latest_eq`), so what `get` finds is the row of its
id; and since a key of the table keeps the place of its first line, the rows
stand in the order in which their ids first occur (`pairwise_rows`).
-/
import JsonpySql.Effects
import Mathlib.Data.List.Pairwise

namespace JsonpySql

/-- The id of a line, read off its `_id`. -/
theorem Record.get?_id_iff {r : Record} {docId : String} :
    r.doc.get? "_id" = some (.str docId) ↔ r.docId = some docId := by
  refine ⟨fun h => ?_, Record.get?_id_of_docId⟩
  rw [Record.docId, h]

namespace DocumentStore

variable {σ : Type} {env : Env} {w : World σ Disk} {file : String} {lines : List Record}

/-- The line in which an id first occurs; past the last line where it does not. -/
def firstLine (lines : List Record) (docId : Option String) : ℕ :=
  (lines.map Record.docId).idxOf docId

theorem firstLine_concat_of_mem {docId : Option String} (h : docId ∈ lines.map Record.docId)
    (r : Record) : firstLine (lines ++ [r]) docId = firstLine lines docId := by
  rw [firstLine, List.map_append, List.idxOf_append_of_mem h, firstLine]

theorem firstLine_lt {docId : Option String} (h : docId ∈ lines.map Record.docId) :
    firstLine lines docId < lines.length :=
  (List.idxOf_lt_length_of_mem h).trans_eq (List.length_map _)

/-- An id that occurs in the last line only. -/
theorem firstLine_concat_self {r : Record} (h : r.docId ∉ lines.map Record.docId) :
    firstLine (lines ++ [r]) r.docId = lines.length := by
  rw [firstLine, List.map_append, List.idxOf_append_of_notMem h, List.length_map]
  simp

/-- The keys of the table stand in the order of their first lines. -/
theorem pairwise_keys_table (lines : List Record) :
    (table lines).keys.Pairwise fun i j =>
      firstLine lines (some i) < firstLine lines (some j) := by
  induction lines using List.reverseRecOn with
  | nil => exact List.Pairwise.nil
  | append_singleton lines r ih =>
      -- one more line does not change where the old keys first occur
      have hold : (table lines).keys.Pairwise fun i j =>
          firstLine (lines ++ [r]) (some i) < firstLine (lines ++ [r]) (some j) := by
        refine ih.imp_of_mem fun hi hj hlt => ?_
        rwa [firstLine_concat_of_mem (mem_keys_table.mp hi),
          firstLine_concat_of_mem (mem_keys_table.mp hj)]
      rw [table_concat]
      rcases hr : r.docId with _ | i
      · rwa [scanStep, hr]
      rw [scanStep_of_docId hr]
      by_cases hi : i ∈ (table lines).keys
      · rwa [OrdDict.keys_set_of_mem _ hi]
      rw [OrdDict.keys_set_of_notMem _ hi, List.pairwise_append]
      refine ⟨hold, List.pairwise_singleton _ _, fun j hj i' hi' => ?_⟩
      obtain rfl := List.mem_singleton.mp hi'
      -- the new key first occurs in the last line
      have hnew : r.docId ∉ lines.map Record.docId := by
        rw [hr]
        exact fun h => hi (mem_keys_table.mpr h)
      have hj' := mem_keys_table.mp hj
      rw [← hr, firstLine_concat_self hnew, firstLine_concat_of_mem hj']
      exact firstLine_lt hj'

/-- So do the rows. -/
theorem pairwise_rows (lines : List Record) :
    (rows (table lines)).Pairwise fun r r' =>
      firstLine lines r.docId < firstLine lines r'.docId := by
  have hid : ∀ i r, (table lines).liveRow i = some r → r.docId = some i := fun i r h =>
    (table_wf lines i r (Table.liveRow_eq_some_iff.mp h)).1
  rw [Table.rows_eq_filterMap, List.pairwise_filterMap]
  refine (pairwise_keys_table lines).imp fun {i j} hlt r hr r' hr' => ?_
  rwa [hid i r hr, hid j r' hr']

/-- The row `get` strips of its `_id`. -/
theorem latest_eq_some_iff {docId : String} {d : Doc} :
    latest docId lines = some d ↔ ∃ r ∈ rows (table lines),
      r.doc.get? "_id" = some (.str docId) ∧ r.stripId = d := by
  rw [latest_eq, Table.get_eq_map_liveRow, Option.map_eq_some_iff]
  simp only [Table.liveRow_eq_some_iff_rows (table_wf lines), and_assoc, Record.get?_id_iff]

/-- **`get` and `scan` read every file the same way**, whatever its lines are:
both return, `get` finds a document just if it is a row of its id without the
`_id`, every row has an id and no two rows have the same, and the rows stand in
the order in which their ids first occur. -/
theorem get_scan_agree (h : w.disk.jsonl file = some lines) :
    ∃ docs : List Record, (scan file : StoreM σ _).value env w = .ok docs ∧
      (∀ docId, ∃ result, (get file docId : StoreM σ _).value env w = .ok result ∧
        ∀ d, result = some d ↔
          ∃ r ∈ docs, r.doc.get? "_id" = some (.str docId) ∧ r.stripId = d) ∧
      (∀ r ∈ docs, ∃ docId, r.docId = some docId) ∧ (docs.map Record.docId).Nodup ∧
      docs.Pairwise fun r r' => firstLine lines r.docId < firstLine lines r'.docId := by
  have hwf := table_wf lines
  refine ⟨_, congrArg Outcome.result (run_scan h), fun docId => ?_, fun r hr => ?_,
    Table.nodup_docId_rows hwf, pairwise_rows lines⟩
  · exact ⟨_, congrArg Outcome.result (run_get h docId), fun d => latest_eq_some_iff⟩
  · obtain ⟨docId, hdocId⟩ := Table.mem_rows.mp hr
    exact ⟨docId, (hwf docId r (Table.liveRow_eq_some_iff.mp hdocId)).1⟩

/-- A line without an id, a delete of what is not there yet, and two lines of one
id around the insert of another. -/
def mixedLines : List Record :=
  [⟨OrdDict.ofList [("name", .str "orphan")], rfl, fun _ h => nomatch h⟩, Record.tombstone "2",
    Record.ofDoc "1" OrdDict.empty, Record.ofDoc "2" (OrdDict.ofList [("name", .str "Bob")]),
    Record.ofDoc "1" (OrdDict.ofList [("name", .str "Alice")])]

/-- The rows of such a file: the second id occurs first. -/
theorem get_scan_agree_mixed :
    let w : World Unit Disk := ⟨(), { Disk.empty with jsonl := fun _ => some mixedLines }⟩
    ∃ docs : List Record, (scan "users.jsonl").value onlyClient w = .ok docs ∧
      docs.map Record.docId = [some "2", some "1"] ∧
      docs.Pairwise fun r r' => firstLine mixedLines r.docId < firstLine mixedLines r'.docId := by
  intro w
  obtain ⟨docs, hscan, -, -, -, horder⟩ :=
    @get_scan_agree Unit onlyClient w "users.jsonl" _ rfl
  refine ⟨docs, hscan, ?_, horder⟩
  rw [← Except.ok.inj hscan]
  rfl

end DocumentStore

end JsonpySql
