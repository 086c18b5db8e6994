/-
JsonpySql/LostWrites.lean

Clients that write to one collection, with and without the lock, while its file is
compacted.

A direct call appends its line inside the lock of the file it has opened, and an
entry that is committed or replayed is appended without any lock.  A compaction
reads the file inside the lock, fills a temporary file, whose name all clients
share, and renames it.  What a block reads and what it finds when it writes may
differ, and `perform_writes` says what it leaves then.

So every run of these clients is one of a file that is swapped (`FileSwap`), and a
`get` finds what the writes have left that no compaction has lost
(`kept_writes`).
-/
import JsonpySql.FileText
import JsonpySql.LockedClients
import JsonpySql.FileSwap

namespace JsonpySql

open StorageEngine FileSwap

/-- What a client does: a direct call, or an entry of a log that it commits or
replays. -/
inductive FileTask (c : String)
  | call (op : OpOn c)
  | entry (e : {e : WALEntry // e.collection = c})

variable {c : String}

namespace FileTask

/-- The call. -/
def perform : FileTask c → EngineM Unit
  | .call op => op.1.perform
  | .entry e => applyEntry e.1

/-- What it does to the collection's file. -/
def kind : FileTask c → Kind
  | .call ⟨.write _, _⟩ => .append
  | .call ⟨.compact _, _⟩ => .swap
  | .entry _ => .bare

/-- The lines of the file when its line has been appended. -/
def write : FileTask c → List Record → List Record
  | .call ⟨.write op, _⟩, lines => lines ++ [op.line]
  | .call ⟨.compact _, _⟩, lines => lines
  | .entry e, lines => lines ++ [e.1.line]

/-- The live line of every id after it. -/
def leaves : FileTask c → (String → Option Record) → String → Option Record
  | .call ⟨.write op, _⟩, live => Function.update live op.docId op.line.slot
  | .call ⟨.compact _, _⟩, live => live
  | .entry e, live => Function.update live e.1.docId e.1.line.slot

end FileTask

/-- The lines of the new file of a compaction that has read these. -/
def compacted (lines : List Record) : List Record :=
  DocumentStore.rows (DocumentStore.table lines)

/-- The rows of a file of which the first bytes are those of the new rows, and the
rest those of the old ones. -/
def overwritten (new : List Record) : List Record → Option (List Record)
  | [] => some new
  | old =>
      let tail := (rowBytes old).drop (rowBytes new).length
      match DocumentStore.readText "" (rowBytes new ++ tail) with
      | .ok rows => some rows
      | .error _ => none

/-- What clients do to the file of a collection. -/
def fileTasks (c : String) : Tasks (FileTask c) (List Record) where
  kind := FileTask.kind
  write := FileTask.write
  rewrite := compacted
  blank := []
  overlay := overwritten
  overlay_blank _ := rfl

/-- The live line of every id. -/
def liveLines (lines : List Record) : String → Option Record := (DocumentStore.table lines).liveRow

/-! ### Blocks -/

/-- **What a block writes.**  A block that has read the file with these lines first
writes to the collection's file, and then its indexes.  Whatever the file holds by
then, a compaction leaves the rows of what it had read, and anything else leaves
its line behind the others. -/
theorem perform_writes {env : Env} {w : Database} {lines : List Record} (task : FileTask c)
    (hw : Serving w) (hc : c ∈ w.mem.keys) (hlines : w.disk.jsonl (jsonlPath c) = some lines)
    (hfree : LockManager.blocked env (jsonlPath c) .exclusive = false) :
    ∃ dw indexes, (task.perform.run env w).writes = dw :: indexes ∧
      (∀ x ∈ indexes, x.isIndex = true) ∧
      ∀ (disk : Disk) (now : List Record), disk.jsonl (jsonlPath c) = some now →
        (disk.write dw).jsonl (jsonlPath c) =
          some (if task.kind = .swap then compacted lines else task.write now) := by
  obtain ⟨im, him⟩ := OrdDict.exists_get?_of_mem hc
  rcases task with ⟨op | c', hop⟩ | ⟨e, he⟩
  · obtain rfl : op.collection = c := hop
    refine ⟨_, _, congrArg Outcome.writes (run_direct op hw him hfree),
      IndexManager.isIndex_saveWrites _, fun disk now hnow => ?_⟩
    show Function.update disk.jsonl _ _ _ = _
    rw [Function.update_self, hnow]
    rfl
  · obtain rfl : c' = c := hop
    refine ⟨_, _, congrArg Outcome.writes (run_compact hw him hfree),
      IndexManager.isIndex_saveWrites _, fun disk now hnow => ?_⟩
    show Function.update disk.jsonl _ _ _ = _
    rw [Function.update_self, tables_of_lines hlines]
    rfl
  · subst he
    refine ⟨_, _, congrArg Outcome.writes (run_applyEntry env e hw him),
      IndexManager.isIndex_saveWrites _, fun disk now hnow => ?_⟩
    show Function.update disk.jsonl _ _ _ = _
    rw [Function.update_self, hnow]
    rfl

/-! ### What a file says -/

theorem liveLines_concat {lines : List Record} {line : Record} {i : String}
    (h : line.docId = some i) :
    liveLines (lines ++ [line]) = Function.update (liveLines lines) i line.slot := by
  funext i'
  rw [liveLines, DocumentStore.table_concat, DocumentStore.scanStep_of_docId h, Table.liveRow_set,
    Function.update_apply]
  rfl

theorem liveLines_write (task : FileTask c) (lines : List Record) :
    liveLines (task.write lines) = task.leaves (liveLines lines) := by
  rcases task with ⟨op | c', hop⟩ | e
  · exact liveLines_concat op.docId_line
  · rfl
  · exact liveLines_concat e.1.docId_line

theorem liveLines_compacted (lines : List Record) :
    liveLines (compacted lines) = liveLines lines := by
  funext i
  rw [liveLines, compacted, DocumentStore.table_rows (DocumentStore.table_wf lines)]
  exact Table.liveRow_live _ i

variable {ι : Type*} [DecidableEq ι] {s : State ι (FileTask c) (List Record)}

/-- A `get` finds what the writes have left that the file shows, if compactions do
not meet. -/
theorem latest_of_reaches {programs : ι → List (FileTask c)} {lines : List Record}
    (hswaps : ¬SwapClash (fileTasks c) programs)
    (hrun : Reaches (fileTasks c) (State.start lines programs) s) (i : String) :
    DocumentStore.latest i s.file.content =
      (outcome FileTask.leaves s.file.shown (liveLines lines) i).map Record.stripId := by
  rw [DocumentStore.latest_eq, Table.get_eq_map_liveRow]
  have hlive := outcome_of_reaches (fun task content _ => liveLines_write task content)
    liveLines_compacted hswaps hrun
  exact congrArg (Option.map Record.stripId) (congrFun hlive i)

/-- **Which writes are kept.**  Any number of clients write to one collection, by calls
and by entries of logs they commit or replay, and compact it.  Unless two
compactions meet, a `get` finds in every run what the writes have left that the
file shows, and these are all writes unless a write and a compaction meet.  Where
these meet, some run loses a write, and where compactions do, some run empties
the file. -/
theorem kept_writes (programs : ι → List (FileTask c)) (lines : List Record) :
    (¬SwapClash (fileTasks c) programs →
      ∀ s, Reaches (fileTasks c) (State.start lines programs) s →
        (∀ i, DocumentStore.latest i s.file.content =
          (outcome FileTask.leaves s.file.shown (liveLines lines) i).map Record.stripId) ∧
        (¬WriteClash (fileTasks c) programs → s.file.shown = s.log)) ∧
    (WriteClash (fileTasks c) programs →
      ∃ s w, Reaches (fileTasks c) (State.start lines programs) s ∧
        s.log = s.file.shown ++ [w]) ∧
    (SwapClash (fileTasks c) programs →
      ∃ s, Reaches (fileTasks c) (State.start lines programs) s ∧ s.file.content = []) := by
  refine ⟨fun hswaps s hrun => ⟨latest_of_reaches hswaps hrun, fun hwrites =>
    kept_of_reaches hwrites hswaps hrun⟩, exists_lost_of_clash lines, fun hclash => ?_⟩
  obtain ⟨s, hrun, hfile⟩ := exists_blank_of_clash lines hclash
  exact ⟨s, hrun, congrArg File.content hfile⟩

/-- Compactions and writes of one collection. -/
def compactTask : FileTask "orders" := .call ⟨.compact "orders", rfl⟩

def insertCall : FileTask "orders" := .call ⟨.write (.insert "orders" "1" OrdDict.empty), rfl⟩

def insertEntry : FileTask "orders" :=
  .entry ⟨⟨.insert, "orders", "1", some OrdDict.empty⟩, rfl⟩

/-- One client compacts once, and another one does this. -/
def compactAnd (task : FileTask "orders") : Fin 2 → List (FileTask "orders")
  | 0 => [compactTask]
  | 1 => [task]

/-- One client compacts twice, and another one once. -/
def compactThrice : Fin 2 → List (FileTask "orders")
  | 0 => [compactTask, compactTask]
  | 1 => [compactTask]

/-- A direct insert does not meet one compaction. -/
theorem not_meet_insertCall (w k : FileTask "orders") :
    ¬Meet (fileTasks "orders") (compactAnd insertCall) w k := by
  rintro ⟨i, j, earlier, later, earlier', later', hij, hi, hj, hk, hcase⟩
  have hswap : ∀ l : Fin 2, ∀ t ∈ compactAnd insertCall l, t.kind = .swap → l = 0 := by
    intro l t ht hkind
    match l with
    | 0 => rfl
    | 1 =>
        obtain rfl := List.mem_singleton.mp ht
        cases hkind
  have hj0 : j = 0 := hswap j k (hj ▸ List.mem_append_right _ List.mem_cons_self) hk
  have hi1 : i = 1 := by omega
  subst hj0 hi1
  obtain ⟨rfl, rfl, -⟩ : earlier = [] ∧ w = insertCall ∧ later = [] := by
    simpa [compactAnd, List.singleton_eq_append_iff] using hi
  obtain ⟨rfl, -⟩ : earlier' = [] ∧ _ := by
    simpa [compactAnd, List.singleton_eq_append_iff] using hj
  rcases hcase with h | ⟨t, ht, -⟩ | ⟨t, ht, -⟩ | ⟨l, hli, hlj, -⟩
  · cases h
  · cases ht
  · cases ht
  · omega

/-- A direct insert is kept next to a compaction, a committed one can be lost, and of
three compactions one can empty the file. -/
theorem kept_writes_orders :
    let lines := [Record.ofDoc "0" OrdDict.empty]
    (∀ s, Reaches (fileTasks "orders") (State.start lines (compactAnd insertCall)) s →
      s.file.shown = s.log) ∧
    (∃ s w, Reaches (fileTasks "orders") (State.start lines (compactAnd insertEntry)) s ∧
      s.log = s.file.shown ++ [w]) ∧
    ∃ s, Reaches (fileTasks "orders") (State.start lines compactThrice) s ∧
      s.file.content = [] := by
  intro lines
  refine ⟨fun s hrun => ?_, ?_, ?_⟩
  · refine ((kept_writes (compactAnd insertCall) lines).1 ?_ s hrun).2 ?_
    · exact fun ⟨w, k, _, hmeet⟩ => not_meet_insertCall w k hmeet
    · exact fun ⟨w, k, _, hmeet⟩ => not_meet_insertCall w k hmeet
  · apply (kept_writes (compactAnd insertEntry) lines).2.1
    refine ⟨insertEntry, compactTask, by decide, ?_⟩
    exact ⟨1, 0, [], [], [], [], by decide, rfl, rfl, rfl, Or.inl rfl⟩
  · apply (kept_writes compactThrice lines).2.2
    refine ⟨compactTask, compactTask, rfl, ?_⟩
    exact ⟨0, 1, [compactTask], [], [], [], by decide, rfl, rfl, rfl,
      Or.inr (Or.inl ⟨compactTask, List.mem_singleton.mpr rfl, rfl⟩)⟩

end JsonpySql
