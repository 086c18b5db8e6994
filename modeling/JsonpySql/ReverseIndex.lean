/-
JsonpySql/ReverseIndex.lean

Edits of the reverse index.

A child is listed under its parents when a schema collection writes it
(`mapsReverse_registerFkReverse`): under the string of each foreign key that is
not null, and under no other (`ids_registered`).
-/
import JsonpySql.SchemaCollection

namespace JsonpySql

open StorageEngine

/-! ### Edits of the reverse index -/

/-- A program that returns `a`, and the reverse index of a collection is then `f`
of what it was. -/
def MapsReverse {α : Type} (env : Env) (c : String) (q : EngineM α) (a : α)
    (f : SortedDict → SortedDict) : Prop :=
  ∀ w im, w.mem.get? c = some im → q.value env w = .ok a ∧
    (q.exec env w).mem.get? c = some { im with reverse := f im.reverse }

namespace MapsReverse

variable {α β : Type} {env : Env} {c : String}

protected theorem pure (env : Env) (c : String) (a : α) : MapsReverse env c (pure a) a id :=
  fun _ _ him => ⟨rfl, him⟩

protected theorem bind {p : EngineM α} {a : α} {q : α → EngineM β} {b : β}
    {f g : SortedDict → SortedDict} (hp : MapsReverse env c p a f)
    (hq : MapsReverse env c (q a) b g) : MapsReverse env c (p >>= q) b (g ∘ f) := by
  intro w im him
  obtain ⟨hok, him'⟩ := hp w im him
  rw [Prog.value_bind_ok hok, Prog.exec_bind_ok hok]
  exact hq _ _ him'

/-- Every turn of a loop maps the reverse index on. -/
protected theorem forM {f : β → EngineM Unit} {g : SortedDict → β → SortedDict} {l : List β}
    (hf : ∀ b ∈ l, MapsReverse env c (f b) () (g · b)) :
    MapsReverse env c (l.forM f) () (l.foldl g) := by
  induction l with
  | nil => exact MapsReverse.pure env c ()
  | cons b l ih =>
      show MapsReverse env c (f b >>= fun _ => l.forM f) () (l.foldl g ∘ (g · b))
      exact (hf b List.mem_cons_self).bind (ih fun b' hb' => hf b' (List.mem_cons_of_mem _ hb'))

end MapsReverse

/-- The writes of the engine leave the reverse index alone. -/
theorem WriteOp.reverse_newIndexes (op : WriteOp) (t : Table) (im : IndexManager) :
    (op.newIndexes t im).reverse = im.reverse := by
  cases op with
  | insert c i d => rfl
  | update c i d => rcases h : t.get i with _ | old <;>
      simp [newIndexes, IndexManager.replaceInIndexes, IndexManager.addToIndexes,
        IndexManager.removeFromIndexes, h]
  | delete c i => rcases h : t.get i with _ | old <;>
      simp [newIndexes, IndexManager.dropFromIndexes, IndexManager.removeFromIndexes, h]

theorem value_getChildren {env : Env} {w : Database} {c parentId : String} {im : IndexManager}
    (him : w.mem.get? c = some im) :
    (StorageEngine.getChildren c parentId).value env w = .ok (im.getChildren parentId) := by
  rw [Prog.value, StorageEngine.getChildren, Prog.run_bind_read (run_indexManager him)]
  rfl

namespace SchemaCollection

variable {self : SchemaCollection} {env : Env} {w : Database} {im : IndexManager}
  {document : Doc} {docId parentId : String}

/-- The reverse index after an edit for every non-null field of a document. -/
def editReverse (edit : String → SortedDict → SortedDict) (document : Doc)
    (fields : List String) (rev : SortedDict) : SortedDict :=
  fields.foldl (fun rev fieldName =>
    if document.get fieldName = .none then rev else edit (document.get fieldName).toStr rev) rev

theorem editReverse_cons (edit : String → SortedDict → SortedDict) (document : Doc)
    (fieldName : String) (fields : List String) (rev : SortedDict) :
    editReverse edit document (fieldName :: fields) rev =
      editReverse edit document fields (if document.get fieldName = .none then rev
        else edit (document.get fieldName).toStr rev) := rfl

theorem mapsReverse_editFkReverse {program : String → StoreM IndexManager Unit}
    {edit : String → SortedDict → SortedDict}
    (hprogram : ∀ parentId im disk, (program parentId).run env ⟨im, disk⟩ =
      ⟨.ok (), { im with reverse := edit parentId im.reverse },
        IndexManager.saveWrites { im with reverse := edit parentId im.reverse }⟩)
    (document : Doc) : MapsReverse env self.name
      (self.fkMeta.keys.forM (self.editFkReverse program document)) ()
      (editReverse edit document self.fkMeta.keys) := by
  apply MapsReverse.forM
  intro fieldName _ w im him
  rw [editFkReverse]
  split
  · exact ⟨rfl, him⟩
  · have hturn : (indexes self.name (program (document.get fieldName).toStr)).run env w = _ :=
      Prog.run_focus him (hprogram _ im w.disk)
    rw [Prog.value, Prog.exec, Prog.run_bind_read (Prog.run_getMem env w), him]
    dsimp only
    rw [hturn]
    exact ⟨rfl, OrdDict.get?_set_self ..⟩

theorem mapsReverse_registerFkReverse (env : Env) (docId : String) (document : Doc) :
    MapsReverse env self.name (self.registerFkReverse docId document) ()
      (editReverse (fun parentId rev => rev.add parentId docId) document self.fkMeta.keys) :=
  mapsReverse_editFkReverse (fun _ _ _ => rfl) document

theorem mapsReverse_unregisterFkReverse (env : Env) (docId : String) (document : Doc) :
    MapsReverse env self.name (self.unregisterFkReverse docId document) ()
      (editReverse (fun parentId rev => rev.remove parentId docId) document self.fkMeta.keys) :=
  mapsReverse_editFkReverse (fun _ _ _ => rfl) document

/-- One of these fields of a document refers to this parent. -/
def NamesParent (fields : List String) (document : Doc) (parentId : String) : Prop :=
  ∃ fieldName ∈ fields, document.get fieldName ≠ .none ∧
    (document.get fieldName).toStr = parentId

theorem namesParent_cons {fieldName : String} {fields : List String} :
    NamesParent (fieldName :: fields) document parentId ↔
      (document.get fieldName ≠ .none ∧ (document.get fieldName).toStr = parentId) ∨
        NamesParent fields document parentId := by
  simp only [NamesParent, List.mem_cons, exists_eq_or_imp]

/-- After a registration somebody is listed under a parent just if somebody was,
or the document refers to it. -/
theorem ids_registered {fields : List String} {rev : SortedDict} :
    InvertedIndex.ids
        (editReverse (fun parentId rev => rev.add parentId docId) document fields rev) parentId = []
      ↔ InvertedIndex.ids rev parentId = [] ∧ ¬NamesParent fields document parentId := by
  induction fields generalizing rev with
  | nil => simp [editReverse, NamesParent]
  | cons fieldName fields ih =>
      rw [editReverse_cons, ih, namesParent_cons, not_or, ← and_assoc]
      refine and_congr_left fun _ => ?_
      split
      · next hnone => simp [hnone]
      · next hsome =>
          rw [InvertedIndex.ids_add]
          -- under the parent it names the document is listed now
          rcases eq_or_ne parentId (document.get fieldName).toStr with hparent | hother
          · rw [if_pos hparent, ← hparent]
            split
            · next hmem => simp [List.ne_nil_of_mem hmem, hsome]
            · simp [hsome]
          · simp [hother, hother.symm]

/-- Unregistering lists nobody. -/
theorem ids_unregistered (docId : String) (document : Doc) (fields : List String)
    {rev : SortedDict} (h : InvertedIndex.ids rev parentId = []) :
    InvertedIndex.ids
      (editReverse (fun parentId rev => rev.remove parentId docId) document fields rev) parentId =
      [] := by
  induction fields generalizing rev with
  | nil => exact h
  | cons fieldName fields ih =>
      rw [editReverse_cons]
      apply ih
      split
      · exact h
      · rw [InvertedIndex.ids_remove]
        split
        · next hparent => rw [← hparent, h, List.erase_nil]
        · exact h

end SchemaCollection

end JsonpySql
