/-
JsonpySql/DocumentStore.lean

The append-only document store: one `.jsonl` file, a line for every write, a
tombstone line for every delete.

Two loops read the file.  `get` keeps a running result for one id; `scan`
builds a dictionary of all ids, in which a key keeps the place of its first
line and `None` stands for a tombstone.  The dictionary is what a file means
(`table`): `latest_eq` says that the first loop looks up the second one's
dictionary, and everything above this file speaks of tables only.

    append a line        table.set id (what the line holds)
    compact the file     table.live
-/
import JsonpySql.Disk
import JsonpySql.LastWins

namespace JsonpySql

/-- The line written on a delete. -/
def Record.tombstone (docId : String) : Record where
  doc := OrdDict.ofList [("_deleted", .bool true), ("_id", .str docId)]
  native := rfl
  id_str v hv := by
    have h : (OrdDict.ofList [("_deleted", PyVal.bool true), ("_id", .str docId)]).get? "_id" =
        some (.str docId) := rfl
    exact Or.inr ⟨docId, (Option.some.inj (h.symm.trans hv)).symm⟩

/-- What a file means: ids in order of first appearance, each with the line
that counts, or `none` for a tombstone. -/
abbrev Table := OrdDict String (Option Record)

namespace DocumentStore

variable {σ : Type}

/-! ### The loops -/

/-- One line of the loop of `get`. -/
def getStep (docId : String) (result : Option Doc) (rec : Record) : Option Doc :=
  if rec.docId ≠ some docId then result
  else if rec.deleted then none
  else some rec.stripId

/-- The loop of `get` over the lines of a file. -/
def latest (docId : String) (lines : List Record) : Option Doc :=
  lines.foldl (getStep docId) none

/-- One line of the loop of `scan`. -/
def scanStep (seen : Table) (rec : Record) : Table :=
  match rec.docId with
  | none => seen
  | some docId => if rec.deleted then seen.set docId none else seen.set docId (some rec)

/-- The dictionary `scan` builds. -/
def table (lines : List Record) : Table := lines.foldl scanStep OrdDict.empty

/-- The rows `scan` yields: the values that are not `None`. -/
def rows (seen : Table) : List Record := seen.values.filterMap id

/-! ### Operations -/

/-- Create an empty file. -/
def create (file : String) : StoreM σ Unit := do
  let env ← Prog.env
  let disk ← Prog.getDisk
  match disk.jsonl file with
  | some _ => Prog.raise (.storageError ("Document store already exists: " ++ env.path file))
  | none => Prog.writeAll [.touchJsonl file]

/-- Delete the file. -/
def destroy (file : String) : StoreM σ Unit := Prog.writeAll [.unlinkJsonl file]

/-- Append one line. -/
def writeLine (file : String) (record : Record) : StoreM σ Unit :=
  Prog.writeAll [.appendJsonl file record]

/-- Append a document line. -/
def append (file docId : String) (document : Doc) : StoreM σ Unit :=
  writeLine file (Record.ofDoc docId document)

/-- Append a tombstone line. -/
def tombstone (file docId : String) : StoreM σ Unit := writeLine file (Record.tombstone docId)

/-- The lines of the file. -/
def iterLines (file : String) : StoreM σ (List Record) := do
  let env ← Prog.env
  let disk ← Prog.getDisk
  match disk.jsonl file with
  | none =>
      Prog.raise (.storageError
        ("Read failed for " ++ env.path file ++ ": " ++ env.noSuchFile file))
  | some lines => pure lines

/-- The latest live document of an id, without its `_id`. -/
def get (file docId : String) : StoreM σ (Option Doc) := do
  let lines ← iterLines file
  return latest docId lines

/-- Every live document, with its `_id`. -/
def scan (file : String) : StoreM σ (List Record) := do
  let lines ← iterLines file
  return rows (table lines)

/-- Rewrite the file with the given rows. -/
def compact (file : String) (liveDocs : List Record) : StoreM σ Unit :=
  Prog.writeAll [.replaceJsonl file liveDocs]

/-- One line of the loop of `count_lines`. -/
def countStep (counts : ℕ × ℕ) (rec : Record) : ℕ × ℕ :=
  (counts.1 + 1, if rec.deleted then counts.2 + 1 else counts.2)

/-- The number of lines, and of tombstone lines. -/
def countLines (file : String) : StoreM σ (ℕ × ℕ) := do
  let lines ← iterLines file
  return lines.foldl countStep (0, 0)

/-! ### Runs -/

variable {env : Env} {w : World σ Disk} {file : String} {lines : List Record}

theorem run_iterLines (h : w.disk.jsonl file = some lines) :
    (iterLines file : StoreM σ _).run env w = ⟨.ok lines, w.mem, []⟩ := by
  simp [iterLines, Prog.run_bind, Prog.exec, Outcome.after, h]

theorem run_get (h : w.disk.jsonl file = some lines) (docId : String) :
    (get file docId : StoreM σ _).run env w = ⟨.ok (latest docId lines), w.mem, []⟩ := by
  rw [get, Prog.run_bind_read (run_iterLines h)]
  rfl

theorem run_scan (h : w.disk.jsonl file = some lines) :
    (scan file : StoreM σ _).run env w = ⟨.ok (rows (table lines)), w.mem, []⟩ := by
  rw [scan, Prog.run_bind_read (run_iterLines h)]
  rfl

theorem run_countLines (h : w.disk.jsonl file = some lines) :
    (countLines file : StoreM σ _).run env w = ⟨.ok (lines.foldl countStep (0, 0)), w.mem, []⟩ := by
  rw [countLines, Prog.run_bind_read (run_iterLines h)]
  rfl

theorem readOnly_iterLines (file : String) : Prog.ReadOnly (iterLines file : StoreM σ _) := by
  refine Prog.readOnly_env.bind fun env => Prog.readOnly_getDisk.bind fun disk => ?_
  rcases disk.jsonl file with _ | lines
  · exact Prog.readOnly_raise _
  · exact Prog.readOnly_pure _

theorem readOnly_get (file docId : String) : Prog.ReadOnly (get file docId : StoreM σ _) :=
  (readOnly_iterLines file).bind fun _ => Prog.readOnly_pure _

theorem readOnly_scan (file : String) : Prog.ReadOnly (scan file : StoreM σ _) :=
  (readOnly_iterLines file).bind fun _ => Prog.readOnly_pure _

end DocumentStore

/-! ### What a line holds -/

namespace Record

/-- What a line leaves in the dictionary of `scan`. -/
def slot (r : Record) : Option Record := if r.deleted then none else some r

@[simp] theorem slot_tombstone (docId : String) : (tombstone docId).slot = none := rfl

@[simp] theorem docId_tombstone (docId : String) : (tombstone docId).docId = some docId := rfl

theorem slot_eq_some_iff {r r' : Record} : r.slot = some r' ↔ r' = r ∧ r.deleted = false := by
  cases h : r.deleted <;> simp [slot, h, eq_comm]

/-- The id of a line is what its `_id` says. -/
theorem get?_id_of_docId {r : Record} {docId : String} (h : r.docId = some docId) :
    r.doc.get? "_id" = some (.str docId) := by
  rcases hv : r.doc.get? "_id" with _ | v
  · simp [Record.docId, hv] at h
  · rcases r.id_str v hv with rfl | ⟨s, rfl⟩
    · simp [Record.docId, hv] at h
    · simpa [Record.docId, hv] using h

end Record

/-! ### Tables -/

namespace Table

/-- `get` on a table. -/
def get (t : Table) (docId : String) : Option Doc := (t.get? docId).join.map Record.stripId

/-- The live line of an id. -/
def liveRow (t : Table) (docId : String) : Option Record := (t.get? docId).join

/-- The table without its tombstones. -/
def live (t : Table) : Table := t.filterValues Option.isSome

/-- A table holds live lines only, each under its own id. -/
def WF (t : Table) : Prop :=
  ∀ docId r, t.get? docId = some (some r) → r.docId = some docId ∧ r.deleted = false

theorem get_eq_map_liveRow (t : Table) (docId : String) :
    t.get docId = (t.liveRow docId).map Record.stripId := rfl

theorem liveRow_eq_some_iff {t : Table} {docId : String} {r : Record} :
    t.liveRow docId = some r ↔ t.get? docId = some (some r) := by
  rw [liveRow, Option.join_eq_some_iff]

theorem liveRow_set (t : Table) (docId docId' : String) (v : Option Record) :
    liveRow (t.set docId v) docId' = if docId' = docId then v else t.liveRow docId' := by
  rw [liveRow, OrdDict.get?_set]
  split <;> rfl

theorem mem_rows {t : Table} {r : Record} :
    r ∈ DocumentStore.rows t ↔ ∃ docId, t.liveRow docId = some r := by
  simp only [DocumentStore.rows, OrdDict.values, List.mem_filterMap, List.mem_map, id_eq,
    liveRow_eq_some_iff, ← OrdDict.mem_entries_iff]
  constructor
  · rintro ⟨_, ⟨⟨docId, v⟩, hmem, rfl⟩, rfl⟩
    exact ⟨docId, hmem⟩
  · rintro ⟨docId, hmem⟩
    exact ⟨_, ⟨_, hmem, rfl⟩, rfl⟩

end Table

namespace DocumentStore

theorem scanStep_of_docId {r : Record} {docId : String} (h : r.docId = some docId) (t : Table) :
    scanStep t r = t.set docId r.slot := by
  rcases hd : r.deleted <;> simp [scanStep, h, hd, Record.slot]

theorem table_concat (lines : List Record) (r : Record) :
    table (lines ++ [r]) = scanStep (table lines) r := by
  simp [table]

theorem latest_concat (docId : String) (lines : List Record) (r : Record) :
    latest docId (lines ++ [r]) = getStep docId (latest docId lines) r := by
  simp [latest]

/-- **Both loops read a file the same way.**  `get` finds what the dictionary
of `scan` holds for the id. -/
theorem latest_eq (docId : String) (lines : List Record) :
    latest docId lines = (table lines).get docId := by
  induction lines using List.reverseRecOn with
  | nil => rfl
  | append_singleton lines r ih =>
      rw [latest_concat, table_concat, ih]
      -- both loops pass over a line without an id
      rcases hr : r.docId with _ | i
      · simp [getStep, scanStep, hr]
      · rw [scanStep_of_docId hr]
        by_cases hi : i = docId
        · subst hi
          cases hd : r.deleted <;> simp [getStep, hr, hd, Table.get, Record.slot]
        · have hne : docId ≠ i := Ne.symm hi
          simp [getStep, hr, hi, Table.get, OrdDict.get?_set_of_ne _ _ hne]

theorem table_wf (lines : List Record) : (table lines).WF := by
  induction lines using List.reverseRecOn with
  | nil => simp [Table.WF, table]
  | append_singleton lines r ih =>
      intro docId r' h
      rw [table_concat] at h
      rcases hr : r.docId with _ | i
      · exact ih docId r' (by simpa [scanStep, hr] using h)
      · rw [scanStep_of_docId hr, OrdDict.get?_set] at h
        split at h
        · next heq =>
            obtain ⟨rfl, hd⟩ := Record.slot_eq_some_iff.mp (Option.some.inj h)
            exact ⟨heq ▸ hr, hd⟩
        · exact ih docId r' h

/-- The ids of a table are those of the lines. -/
theorem mem_keys_table {docId : String} {lines : List Record} :
    docId ∈ (table lines).keys ↔ some docId ∈ lines.map Record.docId := by
  induction lines using List.reverseRecOn with
  | nil => simp [table]
  | append_singleton lines r ih =>
      rw [table_concat, List.map_append, List.mem_append, ← ih]
      rcases hr : r.docId with _ | i
      · simp [scanStep, hr]
      · rw [scanStep_of_docId hr, OrdDict.mem_keys_set]
        simp [hr, or_comm]

/-! ### Compaction -/

/-- The rows of a well-formed table are the values of its live part. -/
theorem map_slot_rows {t : Table} (h : t.WF) :
    (rows t).map (fun r => (r.docId, r.slot)) = t.live.entries.map fun e => (some e.1, e.2) := by
  have hmem : ∀ e ∈ t.entries, ∀ r, e.2 = some r → r.docId = some e.1 ∧ r.deleted = false := by
    intro e he r hr
    exact h e.1 r (OrdDict.mem_entries_iff.mp (hr ▸ he))
  simp only [rows, OrdDict.values, Table.live, OrdDict.filterValues]
  generalize t.entries = l at hmem
  induction l with
  | nil => rfl
  | cons e l ih =>
      have ih' := ih fun e' he' => hmem e' (List.mem_cons_of_mem _ he')
      -- a tombstone is dropped on both sides
      obtain ⟨i, _ | r⟩ := e
      · simpa using ih'
      · obtain ⟨hid, hd⟩ := hmem _ List.mem_cons_self r rfl
        have hslot : r.slot = some r := by simp [Record.slot, hd]
        simpa [hid, hslot] using ih'

/-- A file that holds the rows of a table means the live part of the table. -/
theorem table_rows {t : Table} (h : t.WF) : table (rows t) = t.live := by
  -- scanning lines that carry an id is assigning their slots
  have hassign : ∀ (l : List Record) (es : List (String × Option Record)) (d : Table),
      l.map (fun r => (r.docId, r.slot)) = es.map (fun e => (some e.1, e.2)) →
      l.foldl scanStep d = d.assign es := by
    intro l
    induction l with
    | nil =>
        intro es d hes
        obtain rfl : es = [] := by simpa using hes.symm
        rfl
    | cons r l ih =>
        rintro (_ | ⟨e, es⟩) d hes
        · simp at hes
        · simp only [List.map_cons, List.cons.injEq, Prod.mk.injEq] at hes
          obtain ⟨⟨hid, hslot⟩, hrest⟩ := hes
          rw [List.foldl_cons, scanStep_of_docId hid, hslot, OrdDict.assign_cons, ih es _ hrest]
  refine OrdDict.ext_entries ?_
  rw [table, hassign _ _ _ (map_slot_rows h)]
  exact OrdDict.entries_ofList_of_nodup t.live.nodup

/-- The loop of `count_lines` counts the lines, and those that are tombstones. -/
theorem foldl_countStep (lines : List Record) (n k : ℕ) :
    lines.foldl countStep (n, k) = (n + lines.length, k + lines.countP Record.deleted) := by
  induction lines generalizing n k with
  | nil => rfl
  | cons r lines ih =>
      rw [List.foldl_cons, countStep, ih, List.length_cons, List.countP_cons]
      cases r.deleted <;> simp <;> omega

end DocumentStore

namespace Table

theorem liveRow_live (t : Table) (docId : String) : t.live.liveRow docId = t.liveRow docId := by
  rw [liveRow, live, OrdDict.get?_filterValues, liveRow]
  rcases t.get? docId with _ | _ | r <;> rfl

theorem WF.live {t : Table} (h : t.WF) : t.live.WF := by
  intro docId r hr
  refine h docId r ?_
  rw [← liveRow_eq_some_iff] at hr ⊢
  rwa [← liveRow_live]

/-- The rows of a table are the live lines of its ids, in order. -/
theorem rows_eq_filterMap (t : Table) : DocumentStore.rows t = t.keys.filterMap t.liveRow := by
  have hvalue : ∀ e ∈ t.entries, e.2 = t.liveRow e.1 := by
    intro e he
    rw [liveRow, OrdDict.mem_entries_iff.mp he]
    rfl
  rw [DocumentStore.rows, OrdDict.values, OrdDict.keys, List.filterMap_map, List.filterMap_map]
  exact List.filterMap_congr hvalue

/-- New ids without a live line do not show. -/
theorem rows_of_keys_le {t t' : Table} (hkeys : t.keys <+: t'.keys)
    (hlive : ∀ docId, t'.liveRow docId = t.liveRow docId) :
    DocumentStore.rows t' = DocumentStore.rows t := by
  obtain ⟨new, hnew⟩ := hkeys
  have hdead : new.filterMap t.liveRow = [] := by
    refine List.filterMap_eq_nil_iff.mpr fun i hi => ?_
    have hnodup : (t.keys ++ new).Nodup := hnew ▸ t'.keys_nodup
    -- a new key is none of the old ones
    have hnot : i ∉ t.keys := fun hm => (List.nodup_append.mp hnodup).2.2 i hm i hi rfl
    rw [liveRow, OrdDict.get?_eq_none_iff.mpr hnot]
    rfl
  have hfun : t'.liveRow = t.liveRow := funext hlive
  rw [rows_eq_filterMap, rows_eq_filterMap, hfun, ← hnew, List.filterMap_append, hdead,
    List.append_nil]

/-- The live line of an id is the row that carries the id. -/
theorem liveRow_eq_some_iff_rows {t : Table} (h : t.WF) {docId : String} {r : Record} :
    t.liveRow docId = some r ↔ r ∈ DocumentStore.rows t ∧ r.docId = some docId := by
  constructor
  · intro hr
    exact ⟨mem_rows.mpr ⟨docId, hr⟩, (h docId r (liveRow_eq_some_iff.mp hr)).1⟩
  · rintro ⟨hr, hid⟩
    obtain ⟨i, hi⟩ := mem_rows.mp hr
    obtain rfl : i = docId :=
      Option.some.inj ((h i r (liveRow_eq_some_iff.mp hi)).1.symm.trans hid)
    exact hi

/-- The rows of a table carry the ids of its live keys, each once. -/
theorem map_docId_rows {t : Table} (h : t.WF) :
    (DocumentStore.rows t).map Record.docId = t.live.keys.map some := by
  have hmap := congrArg (List.map Prod.fst) (DocumentStore.map_slot_rows h)
  simpa [Function.comp_def, OrdDict.keys] using hmap

/-- The rows of a table are those of its live part. -/
theorem rows_live (t : Table) : DocumentStore.rows t.live = DocumentStore.rows t := by
  rw [DocumentStore.rows, DocumentStore.rows, OrdDict.values, OrdDict.values, live,
    OrdDict.filterValues, List.filterMap_map, List.filterMap_map, List.filterMap_filter]
  refine List.filterMap_congr fun e _ => ?_
  rcases h : e.2 with _ | r <;> simp [h]

/-- No row is a tombstone. -/
theorem deleted_of_mem_rows {t : Table} (h : t.WF) {r : Record} (hr : r ∈ DocumentStore.rows t) :
    r.deleted = false := by
  obtain ⟨i, hi⟩ := mem_rows.mp hr
  exact (h i r (liveRow_eq_some_iff.mp hi)).2

/-- A write to one id changes the number of rows by what it adds and what it
takes away. -/
theorem length_rows_set (t : Table) (docId : String) (v : Option Record) :
    (DocumentStore.rows (t.set docId v)).length + (if (t.liveRow docId).isSome then 1 else 0) =
      (DocumentStore.rows t).length + if v.isSome then 1 else 0 := by
  have hlength : ∀ t : Table, (DocumentStore.rows t).length =
      t.entries.countP fun e => e.2.isSome := by
    intro t
    rw [DocumentStore.rows, OrdDict.values, List.filterMap_map, List.length_filterMap_eq_countP]
    rfl
  have hcount := countP_setEntry Option.isSome docId v t.entries
  rw [hlength, hlength, OrdDict.set, liveRow, OrdDict.get?]
  rcases hold : t.entries.lookup docId with _ | _ | r <;> simpa [hold] using hcount

theorem nodup_docId_rows {t : Table} (h : t.WF) :
    ((DocumentStore.rows t).map Record.docId).Nodup := by
  rw [map_docId_rows h]
  exact t.live.keys_nodup.map fun _ _ => Option.some.inj

end Table

end JsonpySql
