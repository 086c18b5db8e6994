/-
JsonpySql/Refiling.lean

What a write does to one index: it removes the id from under one key, if any,
and files it under another, if any (`InvertedIndex.refile`).  Which keys these
are is read off the operation, the spec and the table, so the six ways to write
differ only in `removedKey`: an insert removes nothing, an update and a delete
remove the key of the document they find, and a logged update or delete takes an
empty document for none.
-/
import JsonpySql.IndexInvariants

namespace JsonpySql

open StorageEngine

variable {im : IndexManager} {t : Table}

/-! ### The two keys -/

/-- The key a direct write removes its id from under. -/
def WriteOp.removedKey (op : WriteOp) (t : Table) (spec : IndexSpec) : Option String :=
  match op with
  | .insert .. => none
  | .update _ i _ | .delete _ i => IndexManager.keyOf spec t i

/-- The key a write files its id under. -/
def WriteOp.filedKey (op : WriteOp) (spec : IndexSpec) : Option String :=
  op.document.map fun d => spec.key (withId d op.docId)

/-- The key of the line a write stores. -/
def WriteOp.storedKey (op : WriteOp) (spec : IndexSpec) : Option String :=
  op.line.slot.map fun r => spec.key r.doc

def WriteOp.isInsert : WriteOp → Bool
  | .insert .. => true
  | _ => false

/-- The key a logged write removes its id from under: none where the document it
finds is empty. -/
def WALEntry.removedKey (e : WALEntry) (t : Table) (spec : IndexSpec) : Option String :=
  match e.op with
  | .insert => none
  | .update | .delete =>
      if t.get e.docId = some OrdDict.empty then none else IndexManager.keyOf spec t e.docId

/-- The key a logged write files its id under. -/
def WALEntry.filedKey (e : WALEntry) (spec : IndexSpec) : Option String :=
  match e.op with
  | .delete => none
  | .insert | .update => some (spec.key (withId (e.document.getD OrdDict.empty) e.docId))

/-! ### One index -/

namespace IndexManager

theorem addToIndexes_eq (im : IndexManager) (docId : String) (document : Doc) :
    (im.addToIndexes docId document).indexes =
      im.indexes.map fun e => (e.1, e.2.refile docId none (some (e.1.key document))) := rfl

theorem replaceInIndexes_eq (im : IndexManager) (docId : String) (old : Option Doc)
    (document : Doc) : (im.replaceInIndexes docId old document).indexes =
      im.indexes.map fun e =>
        (e.1, e.2.refile docId (old.map e.1.key) (some (e.1.key document))) := by
  cases old with
  | none => rfl
  | some old =>
      simp [replaceInIndexes, addToIndexes, removeFromIndexes, InvertedIndex.refile]

theorem dropFromIndexes_eq (im : IndexManager) (docId : String) (old : Option Doc) :
    (im.dropFromIndexes docId old).indexes =
      im.indexes.map fun e => (e.1, e.2.refile docId (old.map e.1.key) none) := by
  cases old with
  | none => simp [dropFromIndexes, InvertedIndex.refile]
  | some old => rfl

/-- The document found for an id has the key the table gives the id. -/
theorem map_key_get (ht : t.WF) (i : String) (spec : IndexSpec) :
    ((t.get i).map (withId · i)).map spec.key = keyOf spec t i := by
  have hold := get_old ht i
  rcases hrow : t.liveRow i with _ | r
  · rw [keyOf, Table.get_eq_map_liveRow, hrow]
    rfl
  · rw [Table.get_eq_map_liveRow, hrow] at hold ⊢
    rw [keyOf, hrow]
    refine congrArg some (spec.key_congr fun field => ?_)
    exact Option.some.inj (hold field)

theorem map_key_truthyDoc (ht : t.WF) (i : String) (spec : IndexSpec) :
    ((truthyDoc (t.get i)).map (withId · i)).map spec.key =
      if t.get i = some OrdDict.empty then none else keyOf spec t i := by
  rw [← map_key_get ht i spec]
  rcases hget : t.get i with _ | d
  · rfl
  · have hd : d.entries = [] ↔ some d = some OrdDict.empty := by
      rw [Option.some.injEq]
      exact ⟨fun h => OrdDict.ext_entries h, fun h => congrArg OrdDict.entries h⟩
    by_cases hempty : d.entries = []
    · rw [if_pos (hd.mp hempty)]
      simp [truthyDoc, Option.filter, hempty]
    · rw [if_neg (mt hd.mpr hempty)]
      simp [truthyDoc, Option.filter, hempty]

end IndexManager

/-- Filing ids again keeps indexes tidy. -/
theorem tidy_refile {indexes : List (IndexSpec × SortedDict)}
    (h : ∀ e ∈ indexes, InvertedIndex.Tidy e.2) (docId : String)
    (removed filed : IndexSpec → Option String) :
    ∀ e ∈ indexes.map fun e => (e.1, e.2.refile docId (removed e.1) (filed e.1)),
      InvertedIndex.Tidy e.2 := by
  intro e he
  obtain ⟨e₀, he₀, rfl⟩ := List.mem_map.mp he
  exact (h e₀ he₀).refile _ _ _

/-- **A direct write** files its id again in every index. -/
theorem WriteOp.indexes_newIndexes (op : WriteOp) (ht : t.WF) (im : IndexManager) :
    (op.newIndexes t im).indexes = im.indexes.map fun e =>
      (e.1, e.2.refile op.docId (op.removedKey t e.1) (op.filedKey e.1)) := by
  cases op with
  | insert c i d => exact im.addToIndexes_eq i _
  | update c i d =>
      refine (im.replaceInIndexes_eq i _ _).trans (List.map_congr_left fun e _ => ?_)
      rw [IndexManager.map_key_get ht]
      rfl
  | delete c i =>
      refine (im.dropFromIndexes_eq i _).trans (List.map_congr_left fun e _ => ?_)
      rw [IndexManager.map_key_get ht]
      rfl

/-- **A logged write** files its id again in every index. -/
theorem WALEntry.indexes_newIndexes (e : WALEntry) (ht : t.WF) (im : IndexManager) :
    (e.newIndexes t im).indexes = im.indexes.map fun f =>
      (f.1, f.2.refile e.docId (e.removedKey t f.1) (e.filedKey f.1)) := by
  obtain ⟨op, c, i, d⟩ := e
  cases op with
  | insert => exact im.addToIndexes_eq i _
  | update =>
      refine (im.replaceInIndexes_eq i _ _).trans (List.map_congr_left fun f _ => ?_)
      rw [IndexManager.map_key_truthyDoc ht]
      rfl
  | delete =>
      refine (im.dropFromIndexes_eq i _).trans (List.map_congr_left fun f _ => ?_)
      rw [IndexManager.map_key_truthyDoc ht]
      rfl

end JsonpySql
