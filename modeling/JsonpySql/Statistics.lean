/-
JsonpySql/Statistics.lean

What the statistics of a collection count.

`get_stats` reads the file line by line and takes the lines that are no
tombstones for the live documents.  An id that is written again while it is
live leaves a line behind that is neither (`superseded`), and a delete of a live
id leaves one too: its tombstone is subtracted, the line it kills is not.  Only
a compaction takes such lines away, so the count is right just where no write
since the last compaction has named a live id (`statistics_iff`).
-/
import Mathlib.Algebra.Order.BigOperators.Group.List
import Mathlib.Algebra.Order.Group.Int
import JsonpySql.LineHistory

namespace JsonpySql

open StorageEngine

/-! ### Statistics -/

/-- Runtime statistics for a single collection. -/
structure CollectionStats where
  name : String
  documentCount : ℤ
  deletedCount : ℕ
  totalLines : ℕ
  indexCount : ℕ
  fileSizeBytes : ℕ

/-- Statistics of the collections of a database. -/
structure DatabaseStats where
  collections : List CollectionStats

/-- Sum of the document counts of all collections. -/
def DatabaseStats.totalDocuments (stats : DatabaseStats) : ℤ :=
  (stats.collections.map CollectionStats.documentCount).sum

-- the size in bytes the file system gives for a file
variable (size : Disk → String → ℕ)

/-- The size of the file. -/
def DocumentStore.fileSize {σ : Type} (file : String) : StoreM σ ℕ := do
  let env ← Prog.env
  let disk ← Prog.getDisk
  match disk.jsonl file with
  | none =>
      Prog.raise (.storageError ("Cannot stat " ++ env.path file ++ ": " ++ env.noSuchFile file))
  | some _ => return size disk file

namespace StorageEngine

def getStats (collection : String) : EngineM CollectionStats := do
  require collection
  let jsonl := jsonlPath collection
  let (total, deleted) ← DocumentStore.countLines jsonl
  let live : ℤ := total - deleted
  let im ← indexManager collection
  let bytes ← DocumentStore.fileSize size jsonl
  return ⟨collection, live, deleted, total, im.specs.length, bytes⟩

/-- The statistics of some collections, in order. -/
def collectionStats : List String → EngineM (List CollectionStats)
  | [] => pure []
  | name :: names => do
      let stats ← getStats size name
      let rest ← collectionStats names
      return stats :: rest

/-- `Database.stats`, on the names `list_collections` yields. -/
def stats (names : List String) : EngineM DatabaseStats := do
  let collections ← collectionStats size names
  return ⟨collections⟩

end StorageEngine

variable {env : Env} {w : Database} {c : String} {ops : List EngineOp}

theorem run_getStats (env : Env) (hw : Serving w) (hc : c ∈ w.mem.keys) : ∃ stats : CollectionStats,
    (getStats size c).run env w = ⟨.ok stats, w.mem, []⟩ ∧ stats.documentCount =
      (fileLines w.disk c).length - (fileLines w.disk c).countP Record.deleted := by
  obtain ⟨im, him⟩ := OrdDict.exists_get?_of_mem hc
  obtain ⟨lines, hl⟩ := Option.isSome_iff_exists.mp (hw c hc)
  have hlines : fileLines w.disk c = lines := by
    rw [fileLines, hl]
    rfl
  have hsize : (DocumentStore.fileSize size (jsonlPath c) : EngineM ℕ).run env w =
      ⟨.ok (size w.disk (jsonlPath c)), w.mem, []⟩ := by
    simp [DocumentStore.fileSize, Prog.run_bind, Prog.exec, Outcome.after, hl]
  have hcount : (DocumentStore.countLines (jsonlPath c) : EngineM _).run env w =
      ⟨.ok (lines.length, lines.countP Record.deleted), w.mem, []⟩ := by
    rw [DocumentStore.run_countLines hl, DocumentStore.foldl_countStep, Nat.zero_add, Nat.zero_add]
  rw [hlines]
  refine ⟨⟨c, lines.length - lines.countP Record.deleted, lines.countP Record.deleted,
    lines.length, im.specs.length, size w.disk (jsonlPath c)⟩, ?_, rfl⟩
  rw [getStats, Prog.run_bind_read (run_require hc), Prog.run_bind_read hcount,
    Prog.run_bind_read (run_indexManager him), Prog.run_bind_read hsize]
  rfl

theorem run_collectionStats (env : Env) (hw : Serving w) {names : List String}
    (hnames : ∀ c ∈ names, c ∈ w.mem.keys) : ∃ l,
    (collectionStats size names).run env w = ⟨.ok l, w.mem, []⟩ ∧
      l.map CollectionStats.documentCount = names.map fun c =>
        ((fileLines w.disk c).length - (fileLines w.disk c).countP Record.deleted : ℤ) := by
  induction names with
  | nil => exact ⟨[], rfl, rfl⟩
  | cons c names ih =>
      obtain ⟨s, hs, hcount⟩ := run_getStats size env hw (hnames c List.mem_cons_self)
      obtain ⟨l, hl, hcounts⟩ := ih fun c' hc' => hnames c' (List.mem_cons_of_mem _ hc')
      refine ⟨s :: l, ?_, ?_⟩
      · rw [collectionStats, Prog.run_bind_read hs, Prog.run_bind_read hl]
        rfl
      · rw [List.map_cons, List.map_cons, hcount, hcounts]

/-! ### Superseded lines -/

/-- How many lines are no tombstones and no rows: a later line of their id has
taken their place. -/
def superseded (lines : List Record) : ℤ :=
  lines.length - lines.countP Record.deleted -
    (DocumentStore.rows (DocumentStore.table lines)).length

/-- A line supersedes the live line of its id. -/
theorem superseded_concat (lines : List Record) {r : Record} {i : String}
    (h : r.docId = some i) : superseded (lines ++ [r]) =
      superseded lines + if ((DocumentStore.table lines).liveRow i).isSome then 1 else 0 := by
  have hrows := (DocumentStore.table lines).length_rows_set i r.slot
  rw [superseded, superseded, DocumentStore.table_concat, DocumentStore.scanStep_of_docId h,
    List.length_append, List.countP_append, List.length_singleton, List.countP_singleton]
  -- the line is a tombstone, or it is the new row of its id
  cases hd : r.deleted <;>
  · simp only [Record.slot, hd, if_true, if_false, Bool.false_eq_true, Option.isSome_none,
      Option.isSome_some] at hrows ⊢
    split at hrows <;> simp only [*, if_true, if_false, Bool.false_eq_true] <;> omega

/-- A compacted file has none. -/
theorem superseded_rows {t : Table} (h : t.WF) : superseded (DocumentStore.rows t) = 0 := by
  have hnone : (DocumentStore.rows t).countP Record.deleted = 0 :=
    List.countP_eq_zero.mpr fun r hr => ne_true_of_eq_false (Table.deleted_of_mem_rows h hr)
  rw [superseded, hnone, DocumentStore.table_rows h, Table.rows_live]
  omega

/-- A write adds one where its id is live. -/
theorem superseded_lineStep_write (L : String → List Record) (op : WriteOp) :
    superseded (lineStep L (.write op) op.collection) = superseded (L op.collection) +
      if ((DocumentStore.table (L op.collection)).liveRow op.docId).isSome then 1 else 0 := by
  have hlines : lineStep L (.write op) op.collection = L op.collection ++ [op.line] :=
    Function.update_self ..
  rw [hlines]
  exact superseded_concat (L op.collection) op.docId_line

theorem superseded_lineStep_compact (L : String → List Record) (c : String) :
    superseded (lineStep L (.compact c) c) = 0 := by
  have hlines : lineStep L (.compact c) c =
      DocumentStore.rows (DocumentStore.table (L c)) := Function.update_self ..
  rw [hlines]
  exact superseded_rows (DocumentStore.table_wf _)

/-- Some write to the collection names an id that is live in the file at that
moment, and no compaction of the collection comes after it. -/
def NamesLive (L : String → List Record) (c : String) (ops : List EngineOp) : Prop :=
  ∃ before op after, ops = before ++ EngineOp.write op :: after ∧ op.collection = c ∧
    EngineOp.compact c ∉ after ∧
      ((DocumentStore.table (before.foldl lineStep L c)).liveRow op.docId).isSome

theorem namesLive_concat {L : String → List Record} {op : EngineOp} :
    NamesLive L c (ops ++ [op]) ↔
      (NamesLive L c ops ∧ op ≠ .compact c) ∨ ∃ write, op = .write write ∧ write.collection = c ∧
        ((DocumentStore.table (ops.foldl lineStep L c)).liveRow write.docId).isSome := by
  constructor
  · rintro ⟨before, write, after, heq, hc, hnot, hlive⟩
    rcases after.eq_nil_or_concat with rfl | ⟨after, last, rfl⟩
    · obtain ⟨rfl, hop⟩ := List.append_inj' heq rfl
      exact Or.inr ⟨write, List.singleton_inj.mp hop, hc, hlive⟩
    · rw [List.concat_eq_append] at heq hnot
      have hsplit : ops ++ [op] = (before ++ .write write :: after) ++ [last] := by simp [heq]
      obtain ⟨rfl, hop⟩ := List.append_inj' hsplit rfl
      obtain rfl := List.singleton_inj.mp hop
      rw [List.mem_append, List.mem_singleton, not_or] at hnot
      exact Or.inl ⟨⟨before, write, after, rfl, hc, hnot.1, hlive⟩, Ne.symm hnot.2⟩
  · rintro (⟨⟨before, write, after, rfl, hc, hnot, hlive⟩, hop⟩ | ⟨write, rfl, hc, hlive⟩)
    · refine ⟨before, write, after ++ [op], by simp, hc, ?_, hlive⟩
      rw [List.mem_append, List.mem_singleton, not_or]
      exact ⟨hnot, Ne.symm hop⟩
    · exact ⟨ops, write, [], rfl, hc, List.not_mem_nil, hlive⟩

/-- **Superseded lines over a run**: there are some just where a write since the
last compaction has named a live id. -/
theorem superseded_run {L : String → List Record} (h0 : superseded (L c) = 0)
    (ops : List EngineOp) : 0 ≤ superseded (ops.foldl lineStep L c) ∧
      (superseded (ops.foldl lineStep L c) = 0 ↔ ¬NamesLive L c ops) := by
  induction ops using List.reverseRecOn with
  | nil =>
      refine ⟨h0.ge, iff_of_true h0 ?_⟩
      rintro ⟨before, op, after, heq, -⟩
      simp at heq
  | append_singleton ops op ih =>
      obtain ⟨hnonneg, hiff⟩ := ih
      rw [List.foldl_concat, namesLive_concat]
      rcases eq_or_ne op.collection c with rfl | hne
      · cases op with
        | write op =>
            have hcoll : (EngineOp.write op).collection = op.collection := rfl
            rw [hcoll] at hnonneg hiff ⊢
            rw [superseded_lineStep_write]
            -- one more line is superseded if the id is live
            by_cases hlive : ((DocumentStore.table
                (ops.foldl lineStep L op.collection)).liveRow op.docId).isSome
            · rw [if_pos hlive]
              exact ⟨by omega, iff_of_false (by omega)
                (not_not_intro (Or.inr ⟨op, rfl, rfl, hlive⟩))⟩
            · rw [if_neg hlive, add_zero, hiff]
              refine ⟨hnonneg, not_congr ⟨fun h => Or.inl ⟨h, by simp⟩, ?_⟩⟩
              rintro (⟨h, -⟩ | ⟨write, heq, -, hwrite⟩)
              · exact h
              · obtain rfl := EngineOp.write.inj heq
                exact absurd hwrite hlive
        | compact c =>
            have hzero : superseded (lineStep (ops.foldl lineStep L) (.compact c)
                (EngineOp.compact c).collection) = 0 := superseded_lineStep_compact _ c
            refine ⟨hzero.ge, iff_of_true hzero ?_⟩
            rintro (⟨-, hne⟩ | ⟨write, heq, -⟩)
            · exact hne rfl
            · cases heq
      -- another collection's operation
      · rw [lineStep_of_ne _ hne, hiff]
        refine ⟨hnonneg, not_congr ⟨fun h => Or.inl ⟨h, ?_⟩, ?_⟩⟩
        · rintro rfl
          exact hne rfl
        · rintro (⟨h, -⟩ | ⟨write, rfl, hc, -⟩)
          · exact h
          · exact absurd hc hne

/-! ### What the statistics say -/

/-- The document count of a collection is the number of rows a scan yields. -/
def CountsLive (env : Env) (w : Database) (c : String) : Prop :=
  ∃ stats rows, (getStats size c).value env w = .ok stats ∧
    (StorageEngine.scan c).value env w = .ok rows ∧ stats.documentCount = rows.length

/-- The total is the number of rows of all collections. -/
def TotalsLive (env : Env) (w : Database) (names : List String) : Prop :=
  ∃ stats, ∃ rows : String → List Record,
    (StorageEngine.stats size names).value env w = .ok stats ∧
      (∀ c ∈ names, (StorageEngine.scan c).value env w = .ok (rows c)) ∧
      stats.totalDocuments = (names.map fun c => ((rows c).length : ℤ)).sum

theorem countsLive_iff (henv : env.Alone) (hw : Serving w) (hc : c ∈ w.mem.keys) :
    CountsLive size env w c ↔ superseded (fileLines w.disk c) = 0 := by
  obtain ⟨s, hs, hcount⟩ := run_getStats size env hw hc
  have hvalue : (getStats size c).value env w = .ok s := congrArg Outcome.result hs
  have hscan := value_scan henv hw hc
  constructor
  · rintro ⟨s', rows, hs', hrows, heq⟩
    obtain rfl := Except.ok.inj (hvalue.symm.trans hs')
    obtain rfl := Except.ok.inj (hscan.symm.trans hrows)
    rw [superseded, ← hcount, heq]
    exact sub_self _
  · intro h
    refine ⟨s, _, hvalue, hscan, ?_⟩
    rw [superseded, ← hcount] at h
    exact sub_eq_zero.mp h

/-- The superseded lines of some files are what the counts have too much. -/
theorem sum_superseded (L : String → List Record) (names : List String) :
    (names.map fun c => superseded (L c)).sum =
      (names.map fun c => ((L c).length - (L c).countP Record.deleted : ℤ)).sum -
        (names.map fun c =>
          ((DocumentStore.rows (DocumentStore.table (L c))).length : ℤ)).sum := by
  induction names with
  | nil => rfl
  | cons c names ih =>
      rw [List.map_cons, List.sum_cons, ih, superseded, List.map_cons, List.sum_cons,
        List.map_cons, List.sum_cons]
      omega

theorem totalsLive_iff (henv : env.Alone) (hw : Serving w) {names : List String}
    (hnames : ∀ c ∈ names, c ∈ w.mem.keys) : TotalsLive size env w names ↔
      (names.map fun c => superseded (fileLines w.disk c)).sum = 0 := by
  obtain ⟨l, hl, hcounts⟩ := run_collectionStats size env hw hnames
  have hvalue : (StorageEngine.stats size names).value env w = .ok ⟨l⟩ := by
    rw [Prog.value, StorageEngine.stats, Prog.run_bind_read hl]
    rfl
  rw [sum_superseded, ← hcounts, sub_eq_zero]
  constructor
  · rintro ⟨s, rows, hs, hrows, heq⟩
    obtain rfl := Except.ok.inj (hvalue.symm.trans hs)
    refine heq.trans (congrArg List.sum (List.map_congr_left fun c hc => ?_))
    rw [Except.ok.inj ((hrows c hc).symm.trans (value_scan henv hw (hnames c hc)))]
    rfl
  · intro h
    exact ⟨⟨l⟩, fun c => DocumentStore.rows (tables w.disk c), hvalue,
      fun c hc => value_scan henv hw (hnames c hc), h⟩

/-- Some write to the collection names an id that is live at that moment, and
no compaction of the collection comes after it. -/
def NamedLive (env : Env) (w : Database) (c : String) (ops : List EngineOp) : Prop :=
  ∃ before op after, ops = before ++ EngineOp.write op :: after ∧ op.collection = c ∧
    EngineOp.compact c ∉ after ∧
      ∃ d, (StorageEngine.get c op.docId).value env ((performAll before).exec env w) = .ok (some d)

theorem namedLive_iff (henv : env.Alone) (hw : Serving w)
    (hreg : ∀ op ∈ ops, op.collection ∈ w.mem.keys) (hc : c ∈ w.mem.keys) :
    NamedLive env w c ops ↔ NamesLive (fileLines w.disk) c ops := by
  refine exists_congr fun before => exists_congr fun op => exists_congr fun after =>
    and_congr_right fun hops => and_congr_right fun _ => and_congr_right fun _ => ?_
  obtain ⟨-, hw', hkeys, hlines⟩ := performAll_lineStep henv hw fun op' hop' =>
    hreg op' (hops ▸ List.mem_append_left _ hop')
  rw [value_get henv hw' (hkeys ▸ hc), tables_eq_table_fileLines, hlines,
    Table.get_eq_map_liveRow]
  rcases (DocumentStore.table (before.foldl lineStep (fileLines w.disk) c)).liveRow op.docId with
    _ | r <;> simp

/-- **When the statistics count live documents.**  After any operations on
registered collections whose files were empty at first, the document count of a
collection is its number of rows just if no write since the collection's last
compaction named a live id; and the total is right just if this is so of every
collection. -/
theorem statistics_iff (ops : List EngineOp) (names : List String) (henv : env.Alone)
    (hw : Serving w) (hreg : ∀ op ∈ ops, op.collection ∈ w.mem.keys)
    (hnames : ∀ c ∈ names, c ∈ w.mem.keys ∧ w.disk.jsonl (jsonlPath c) = some []) :
    let w' := (performAll ops).exec env w
    (∀ c ∈ names, CountsLive size env w' c ↔ ¬NamedLive env w c ops) ∧
      (TotalsLive size env w' names ↔ ∀ c ∈ names, ¬NamedLive env w c ops) := by
  intro w'
  obtain ⟨-, hw', hkeys, hlines⟩ := performAll_lineStep henv hw hreg
  have hrun : ∀ c ∈ names, 0 ≤ superseded (fileLines w'.disk c) ∧
      (superseded (fileLines w'.disk c) = 0 ↔ ¬NamedLive env w c ops) := by
    intro c hc
    have hempty : superseded (fileLines w.disk c) = 0 := by
      rw [fileLines, (hnames c hc).2]
      rfl
    rw [hlines, namedLive_iff henv hw hreg (hnames c hc).1]
    exact superseded_run hempty ops
  have hreg' : ∀ c ∈ names, c ∈ w'.mem.keys := fun c hc => hkeys ▸ (hnames c hc).1
  refine ⟨fun c hc => (countsLive_iff size henv hw' (hreg' c hc)).trans (hrun c hc).2, ?_⟩
  rw [totalsLive_iff size henv hw' hreg']
  constructor
  -- none of the numbers is negative, so all of them are zero
  · intro hsum c hc
    refine (hrun c hc).2.mp (List.all_zero_of_le_zero_le_of_sum_eq_zero ?_ hsum
      (List.mem_map_of_mem hc))
    intro n hn
    obtain ⟨c', hc', rfl⟩ := List.mem_map.mp hn
    exact (hrun c' hc').1
  · intro hall
    refine List.sum_eq_zero fun n hn => ?_
    obtain ⟨c, hc, rfl⟩ := List.mem_map.mp hn
    exact (hrun c hc).2.mpr (hall c hc)

/-- A document is updated: there is one, and two are counted. -/
theorem update_counted_twice :
    let ops : List EngineOp := [.write (.insert "users" "1" OrdDict.empty),
      .write (.update "users" "1" OrdDict.empty)]
    ¬CountsLive (fun _ _ => 0) onlyClient ((performAll ops).exec onlyClient usersDb) "users" := by
  rintro ops ⟨s, rows, hs, hrows, heq⟩
  obtain rfl := Except.ok.inj hs
  obtain rfl := Except.ok.inj hrows
  exact absurd heq (by decide)

/-- Two inserts, a delete and a compaction. -/
theorem statistics_users :
    let ops : List EngineOp := [.write (.insert "users" "1" OrdDict.empty),
      .write (.insert "users" "2" OrdDict.empty), .write (.delete "users" "1"), .compact "users"]
    CountsLive (fun _ _ => 0) onlyClient ((performAll ops).exec onlyClient usersDb) "users" := by
  intro ops
  have hnew : ∀ c ∈ ["users"], c ∈ usersDb.mem.keys ∧
      usersDb.disk.jsonl (jsonlPath c) = some [] := by
    intro c hc
    obtain rfl := List.mem_singleton.mp hc
    exact ⟨List.mem_singleton.mpr rfl, rfl⟩
  have hiff := (statistics_iff (fun _ _ => 0) ops ["users"] onlyClient_alone usersDb_serving
    (by decide) hnew).1 "users" (List.mem_singleton.mpr rfl)
  refine hiff.mpr ?_
  -- the last operation is a compaction
  rintro ⟨before, op, after, heq, -, hnot, -⟩
  have hlast : (EngineOp.write op :: after).getLast? = some (.compact "users") := by
    rw [← List.getLast?_append_of_ne_nil before (List.cons_ne_nil _ _), ← heq]
    rfl
  rcases List.mem_cons.mp (List.mem_of_getLast? hlast) with hop | hafter
  · cases hop
  · exact hnot hafter

end JsonpySql
