/-
JsonpySql/LineHistory.lean

The lines of a collection's file over a run of operations.

A table forgets what a file is made of: how many lines an id has had, and how
many of them are tombstones.  What `count_lines` and `get_stats` report depends
on this, so here a run is followed line by line.  A write appends its line to
one file (`lineStep`), a compaction leaves one line for every row.
-/
import JsonpySql.Effects

namespace JsonpySql

open StorageEngine

/-! ### The file of a collection -/

/-- The lines of the file of every collection. -/
def fileLines (disk : Disk) (c : String) : List Record := (disk.jsonl (jsonlPath c)).getD []

theorem tables_eq_table_fileLines (disk : Disk) (c : String) :
    tables disk c = DocumentStore.table (fileLines disk c) := rfl

theorem fileLines_of_update {d d' : Disk} {c : String} {lines : List Record}
    (h : d'.jsonl = Function.update d.jsonl (jsonlPath c) (some lines)) :
    fileLines d' = Function.update (fileLines d) c lines := by
  funext c'
  rcases eq_or_ne c' c with rfl | hne
  · simp [fileLines, h]
  · have hp : jsonlPath c' ≠ jsonlPath c := fun h => hne (jsonlPath_injective h)
    simp [fileLines, h, hne, hp]

theorem fileLines_appendJsonl (disk : Disk) (c : String) (line : Record) :
    fileLines (disk.write (.appendJsonl (jsonlPath c) line)) =
      Function.update (fileLines disk) c (fileLines disk c ++ [line]) :=
  fileLines_of_update rfl

theorem fileLines_replaceJsonl (disk : Disk) (c : String) (lines : List Record) :
    fileLines (disk.write (.replaceJsonl (jsonlPath c) lines)) =
      Function.update (fileLines disk) c lines :=
  fileLines_of_update rfl

theorem fileLines_congr {d d' : Disk} (h : d.SameData d') : fileLines d' = fileLines d := by
  funext c
  rw [fileLines, fileLines, h.jsonl]

variable {env : Env} {w : Database} {c : String} {im : IndexManager} {ops : List EngineOp}

/-- The lines of the collection's file after an operation. -/
def EngineOp.newLines (op : EngineOp) (lines : List Record) : List Record :=
  match op with
  | .write op => lines ++ [op.line]
  | .compact _ => DocumentStore.rows (DocumentStore.table lines)

/-- The lines of all files after an operation. -/
def lineStep (L : String → List Record) (op : EngineOp) : String → List Record :=
  Function.update L op.collection (op.newLines (L op.collection))

theorem lineStep_of_ne (L : String → List Record) {op : EngineOp} (h : op.collection ≠ c) :
    lineStep L op c = L c :=
  Function.update_of_ne (Ne.symm h) _ _

/-- **One operation** changes the lines of its file. -/
theorem fileLines_perform (op : EngineOp) (hw : Serving w)
    (him : w.mem.get? op.collection = some im)
    (hfree : LockManager.blocked env (jsonlPath op.collection) .exclusive = false) :
    fileLines (op.perform.exec env w).disk = lineStep (fileLines w.disk) op := by
  -- the save of the indexes leaves the documents alone
  cases op with
  | write op =>
      rw [EngineOp.perform, Prog.exec, run_direct op hw him hfree]
      refine (fileLines_congr (IndexManager.sameData_saveWrites _ _)).trans ?_
      exact fileLines_appendJsonl w.disk op.collection op.line
  | compact c =>
      rw [EngineOp.perform, Prog.exec, run_compact (c := c) hw him hfree]
      refine (fileLines_congr (IndexManager.sameData_saveWrites _ _)).trans ?_
      exact fileLines_replaceJsonl w.disk c _

/-! ### Runs -/

/-- **A run of operations**, line by line. -/
theorem performAll_lineStep (henv : env.Alone) (hw : Serving w)
    (hreg : ∀ op ∈ ops, op.collection ∈ w.mem.keys) :
    (performAll ops).value env w = .ok () ∧ Serving ((performAll ops).exec env w) ∧
      ((performAll ops).exec env w).mem.keys = w.mem.keys ∧
      fileLines ((performAll ops).exec env w).disk = ops.foldl lineStep (fileLines w.disk) := by
  apply Prog.forM_simulation
    (fun w₁ L => Serving w₁ ∧ w₁.mem.keys = w.mem.keys ∧ fileLines w₁.disk = L) ⟨hw, rfl, rfl⟩
  rintro op hop w₁ L ⟨hw₁, hkeys, rfl⟩
  have hc : op.collection ∈ w₁.mem.keys := hkeys ▸ hreg op hop
  obtain ⟨im, him⟩ := OrdDict.exists_get?_of_mem hc
  obtain ⟨hok, hchanged⟩ := perform_spec_of_alone op henv hw₁ him
  exact ⟨hok, hchanged.serving hc hw₁, (hchanged.keys hc).trans hkeys,
    fileLines_perform op hw₁ him (LockManager.blocked_of_alone henv _ .exclusive)⟩

end JsonpySql
