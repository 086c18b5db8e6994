/-
JsonpySql/Listings.lean

What the indexes list after a sequence of writes.

An index lists an id under the keys its history has left (`KeyHistory`).  The
history of an id is read off the writes to it and the document they find, in the
same way for direct and for logged writes: they differ in which writes forget to
remove the old key (`Writer`).  So what every index lists after any sequence of
writes is `listedAfter` of the histories of the ids (`foldl_listed`).
-/
import JsonpySql.Atomicity
import JsonpySql.KeyHistory
import JsonpySql.Refiling

namespace JsonpySql

open StorageEngine

/-! ### Ways to write -/

/-- A way to write documents: which document a write names, the line it leaves,
whether it forgets to remove the old key of the id, given the old line, and the
key it files the id under. -/
structure Writer (β : Type) where
  target : β → String × String
  slot : β → Option Record
  forgets : β → Option Record → Bool
  filedKey : β → IndexSpec → Option String

/-- Tables, and the keys that the indexes with a spec list an id under. -/
structure Listing where
  table : String → Table
  listed : String → IndexSpec → String → String → Prop

/-- A lookup yields the same ids in two databases. -/
def SameIds (env : Env) (w₁ w₂ : Database) (c field : String) (v : PyVal) : Prop :=
  ∃ ids₁ ids₂, (StorageEngine.lookup c field v).value env w₁ = .ok ids₁ ∧
    (StorageEngine.lookup c field v).value env w₂ = .ok ids₂ ∧ ∀ i, i ∈ ids₁ ↔ i ∈ ids₂

/-- Tables, and indexes that list every id under its key alone. -/
def Listing.exact (T : String → Table) : Listing where
  table := T
  listed c spec i key := IndexManager.keyOf spec (T c) i = some key

/-- The key an index on one field has for a live line. -/
def keyIn (field : String) (row : Option Record) : Option String :=
  row.map fun r => (Doc.get r.doc field).toStr

theorem map_key_eq_keyIn {field : String} {spec : IndexSpec} (hfields : spec.fields = [field])
    (row : Option Record) : (row.map fun r => spec.key r.doc) = keyIn field row :=
  congrArg row.map (funext fun r => IndexSpec.key_single hfields r.doc)

/-- A field with an index on it alone has a first one. -/
theorem exists_find_spec {specs : List IndexSpec} {field : String} :
    (∃ spec ∈ specs, spec.fields = [field]) ↔
      ∃ spec, specs.find? (fun spec => spec.fields = [field]) = some spec := by
  rw [← Option.isSome_iff_exists, List.find?_isSome]
  simp only [decide_eq_true_eq]

theorem fields_of_find {specs : List IndexSpec} {field : String} {spec : IndexSpec}
    (h : specs.find? (fun spec => spec.fields = [field]) = some spec) : spec.fields = [field] := by
  simpa using List.find?_some h

namespace Writer

variable {β : Type} (W : Writer β) {spec : IndexSpec}

/-- A write, as a step in the history of its id. -/
def keyStep (spec : IndexSpec) (old : Option Record) (b : β) : KeyStep String :=
  ⟨W.forgets b old, W.filedKey b spec, (W.slot b).map fun r => spec.key r.doc⟩

/-- The history of an id with the line `old`. -/
def history (spec : IndexSpec) : Option Record → List β → List (KeyStep String)
  | _, [] => []
  | old, b :: l => W.keyStep spec old b :: history spec (W.slot b) l

/-- The tables and the indexes after a write. -/
def step (s : Listing) (b : β) : Listing where
  table := store.put s.table (W.target b) (W.slot b)
  listed c spec i :=
    if W.target b = (c, i) then
      (W.keyStep spec ((s.table c).liveRow i) b).listed (IndexManager.keyOf spec (s.table c) i)
        (s.listed c spec i)
    else s.listed c spec i

/-- The tables after a sequence of writes. -/
theorem foldl_table (l : List β) (s : Listing) :
    (l.foldl W.step s).table = store.run s.table (l.map fun b => (W.target b, W.slot b)) := by
  induction l generalizing s with
  | nil => rfl
  | cons b l ih => exact ih (W.step s b)

/-- **What is listed after a sequence of writes.** -/
theorem foldl_listed (l : List β) (s : Listing) (c : String) (spec : IndexSpec) (i : String) :
    (l.foldl W.step s).listed c spec i =
      KeyStep.listedAfter (W.history spec ((s.table c).liveRow i)
          (l.filter fun b => W.target b = (c, i)))
        (IndexManager.keyOf spec (s.table c) i) (s.listed c spec i) := by
  induction l generalizing s with
  | nil => rfl
  | cons b l ih =>
      have hrow : ((W.step s b).table c).liveRow i =
          if W.target b = (c, i) then W.slot b else (s.table c).liveRow i :=
        liveRow_put s.table (W.target b) (W.slot b) c i
      have hlisted : (W.step s b).listed c spec i =
          if W.target b = (c, i) then (W.keyStep spec ((s.table c).liveRow i) b).listed
            (IndexManager.keyOf spec (s.table c) i) (s.listed c spec i)
          else s.listed c spec i := rfl
      rw [List.foldl_cons, ih, List.filter_cons, IndexManager.keyOf, hrow, hlisted]
      rcases Decidable.em (W.target b = (c, i)) with h | h
      · simp only [h, if_true, decide_true]
        rfl
      · simp only [h, if_false, decide_false, Bool.false_eq_true]
        rfl

/-- The live line of an id after the writes to it. -/
def rowAfter (old : Option Record) (l : List β) : Option Record :=
  l.foldl (fun _ b => W.slot b) old

theorem keyAfter_history (spec : IndexSpec) (old : Option Record) (l : List β) :
    KeyStep.keyAfter (W.history spec old l) (old.map fun r => spec.key r.doc) =
      (W.rowAfter old l).map fun r => spec.key r.doc := by
  induction l generalizing old with
  | nil => rfl
  | cons b l ih => exact ih (W.slot b)

theorem forall_history {P : KeyStep String → Prop} {l : List β}
    (h : ∀ b ∈ l, ∀ old, P (W.keyStep spec old b)) : ∀ old, ∀ s ∈ W.history spec old l, P s := by
  induction l with
  | nil => simp [history]
  | cons b l ih =>
      rw [List.forall_mem_cons] at h
      exact fun old => List.forall_mem_cons.mpr ⟨h.1 old, ih h.2 (W.slot b)⟩

theorem never_key_history (spec : IndexSpec) (old : Option Record) (l : List β) (key : String) :
    (∀ s ∈ W.history spec old l, s.key ≠ some key) ↔
      ∀ b ∈ l, ((W.slot b).map fun r => spec.key r.doc) ≠ some key := by
  induction l generalizing old with
  | nil => simp [history]
  | cons b l ih =>
      rw [history, List.forall_mem_cons, List.forall_mem_cons, ih]
      rfl

/-- What the writes to an id leave behind: the key of a line that a write forgets
about, or one that a write files the id under in vain, if no write to the id
from there on stores a line with this key. -/
theorem leftBehind_history (spec : IndexSpec) (p : β → Prop) [DecidablePred p]
    (old : Option Record) (l : List β) (key : String) :
    KeyStep.LeftBehind (W.history spec old (l.filter p)) (old.map fun r => spec.key r.doc) key ↔
      ∃ earlier b later, l = earlier ++ b :: later ∧ p b ∧
        (W.forgets b (W.rowAfter old (earlier.filter p)) = true ∧
            ((W.rowAfter old (earlier.filter p)).map fun r => spec.key r.doc) = some key ∨
          W.filedKey b spec = some key) ∧
        ∀ b' ∈ b :: later, p b' → ((W.slot b').map fun r => spec.key r.doc) ≠ some key := by
  induction l generalizing old with
  | nil =>
      refine iff_of_false KeyStep.leftBehind_nil ?_
      rintro ⟨earlier, b, later, hl, -⟩
      exact List.append_ne_nil_of_right_ne_nil _ (List.cons_ne_nil _ _) hl.symm
  | cons b l ih =>
      rw [KeyStep.exists_place_cons]
      rcases Decidable.em (p b) with hb | hb
      -- the write is to the id
      · simp only [List.filter_cons_of_pos, hb, decide_true]
        have hnever : (∀ s' ∈ W.history spec old (b :: l.filter p), s'.key ≠ some key) ↔
            ∀ b' ∈ b :: l, p b' → ((W.slot b').map fun r => spec.key r.doc) ≠ some key := by
          rw [never_key_history, List.forall_mem_cons, List.forall_mem_cons]
          simp [List.mem_filter, hb]
        rw [true_and, ← hnever]
        exact KeyStep.leftBehind_cons.trans (or_congr Iff.rfl (ih (W.slot b)))
      -- the write is to another one
      · simp only [List.filter_cons_of_neg, hb, decide_false, Bool.false_eq_true, not_false_iff,
          false_and, false_or]
        exact ih old

/-- **What is listed after a sequence of writes**, if every id was listed under
its key alone: the key of the line the writes leave, and besides the keys left
behind. -/
theorem foldl_exact_iff (l : List β) (T : String → Table) (c : String) (spec : IndexSpec)
    (i : String) (hfiled : ∀ b ∈ l, ∀ key,
      ((W.slot b).map fun r => spec.key r.doc) = some key → W.filedKey b spec = some key)
    (key : String) :
    (l.foldl W.step (Listing.exact T)).listed c spec i key ↔
      ((W.rowAfter ((T c).liveRow i) (l.filter fun b => W.target b = (c, i))).map
        fun r => spec.key r.doc) = some key ∨
      KeyStep.LeftBehind (W.history spec ((T c).liveRow i)
        (l.filter fun b => W.target b = (c, i))) (IndexManager.keyOf spec (T c) i) key := by
  have hstored : ∀ s ∈ W.history spec ((T c).liveRow i) (l.filter fun b => W.target b = (c, i)),
      ∀ key, s.key = some key → s.filed = some key :=
    W.forall_history (fun b hb _ => hfiled b (List.mem_of_mem_filter hb)) _
  rw [W.foldl_listed, ← W.keyAfter_history]
  exact KeyStep.listedAfter_iff_of_exact hstored (fun _ => Iff.rfl) key

/-- What is left behind is not the key of the line the writes leave. -/
theorem rowAfter_ne_of_leftBehind {old : Option Record} {l : List β} {key : String}
    (h : KeyStep.LeftBehind (W.history spec old l) (old.map fun r => spec.key r.doc) key) :
    ((W.rowAfter old l).map fun r => spec.key r.doc) ≠ some key := by
  rw [← W.keyAfter_history]
  exact h.keyAfter_ne

end Writer

/-! ### Indexes that list -/

/-- A database has these tables, and the indexes of one collection list just this. -/
structure Listing.Shows (s : Listing) (c : String) (w : Database) : Prop where
  tables_eq : tables w.disk = s.table
  tidy : ∀ im, w.mem.get? c = some im → ∀ e ∈ im.indexes, InvertedIndex.Tidy e.2
  mem_ids : ∀ im, w.mem.get? c = some im → ∀ e ∈ im.indexes, ∀ i key,
    i ∈ InvertedIndex.ids e.2 key ↔ s.listed c e.1 i key

namespace Listing.Shows

variable {s : Listing} {c : String} {w w' : Database}

/-- It depends on the memory and the documents. -/
theorem frame (h : s.Shows c w) (hmem : w'.mem = w.mem)
    (hjsonl : w'.disk.jsonl = w.disk.jsonl) : s.Shows c w' where
  tables_eq := by
    rw [← h.tables_eq]
    funext c
    rw [tables, tables, hjsonl]
  tidy := hmem ▸ h.tidy
  mem_ids := hmem ▸ h.mem_ids

/-- Where the indexes are exact, an id is listed under its key. -/
theorem of_exact (h : ∀ im, w.mem.get? c = some im → im.Exact (tables w.disk c)) :
    (Listing.exact (tables w.disk)).Shows c w where
  tables_eq := rfl
  tidy im him e he := (h im him e he).nodup
  mem_ids im him e he i key := (h im him e he).mem_ids key i

/-- **A write moves the listing on**, if it files its id again in every index. -/
theorem step {β : Type} (W : Writer β) (b : β) (h : s.Shows c w) {c' docId : String}
    {im im' : IndexManager} (him : w.mem.get? c' = some im) (htarget : W.target b = (c', docId))
    (hchanged : Changed w w' c' ((tables w.disk c').set docId (W.slot b)) im')
    (hindexes : im'.indexes = im.indexes.map fun e =>
      (e.1, e.2.refile docId
        ((W.keyStep e.1 ((s.table c').liveRow docId) b).removed
          (IndexManager.keyOf e.1 (s.table c') docId)) (W.filedKey b e.1))) :
    (W.step s b).Shows c w' := by
  have htables : tables w'.disk = (W.step s b).table := by
    rw [hchanged.tables, h.tables_eq, Writer.step, htarget, store_put]
  rcases eq_or_ne c c' with rfl | hne
  -- the indexes of this collection: the id is filed again in every one
  · have hself : w'.mem.get? c = some im' := hchanged.get?_self
    refine ⟨htables, fun im₁ him₁ e he => ?_, fun im₁ him₁ e he i key => ?_⟩ <;>
      obtain rfl := Option.some.inj (hself.symm.trans him₁) <;>
      rw [hindexes] at he <;>
      obtain ⟨e₀, he₀, rfl⟩ := List.mem_map.mp he
    · exact (h.tidy im him e₀ he₀).refile _ _ _
    · have hlisted : (fun key => i ∈ InvertedIndex.ids e₀.2 key) = s.listed c e₀.1 i :=
        funext fun key => propext (h.mem_ids im him e₀ he₀ i key)
      refine (KeyStep.mem_ids_refile (h.tidy im him e₀ he₀) docId i).trans ?_
      rw [hlisted, h.mem_ids im him e₀ he₀]
      show _ ↔ (if W.target b = (c, i) then _ else _ : String → Prop) key
      rw [htarget]
      rcases eq_or_ne i docId with rfl | hi
      · simp only [if_true]
      · simp only [hi, if_false, Prod.mk.injEq, true_and, Ne.symm hi]
  -- those of another one stay
  · have hother : w'.mem.get? c = w.mem.get? c := hchanged.get?_of_ne hne
    refine ⟨htables, hother ▸ h.tidy, fun im₁ him₁ e he i key => ?_⟩
    have hnot : W.target b ≠ (c, i) := by
      rw [htarget]
      exact fun heq => hne (Prod.mk.inj heq).1.symm
    rw [h.mem_ids im₁ (hother ▸ him₁) e he]
    show _ ↔ (if W.target b = (c, i) then _ else _ : String → Prop) key
    rw [if_neg hnot]

end Listing.Shows

/-! ### The two ways to write -/

/-- The direct calls: an insert does not look for an old document. -/
def directWriter : Writer WriteOp where
  target := WriteOp.target
  slot op := op.line.slot
  forgets op _ := op.isInsert
  filedKey := WriteOp.filedKey

/-- The logged writes: neither does a logged insert, and an empty old document
counts as none. -/
def logWriter : Writer WALEntry where
  target := WALEntry.target
  slot e := e.line.slot
  forgets e old := e.op = .insert || old.map Record.stripId = some OrdDict.empty
  filedKey := WALEntry.filedKey

/-- The line the direct calls leave. -/
theorem rowAfter_directWriter (T : String → Table) (ops : List WriteOp) (c i : String) :
    directWriter.rowAfter ((T c).liveRow i) (ops.filter fun op => op.target = (c, i)) =
      lineAfter T ops c i := by
  rw [lineAfter]
  induction ops.filter (fun op => op.target = (c, i)) using List.reverseRecOn with
  | nil => rfl
  | append_singleton l op _ =>
      rw [Writer.rowAfter, List.foldl_append, List.getLast?_concat]
      rfl

section Runs

variable {env : Env} {s : Listing} {w w' : Database} {im : IndexManager} {c : String}

theorem Listing.Shows.direct (h : s.Shows c w) (op : WriteOp)
    (him : w.mem.get? op.collection = some im)
    (hchanged : Changed w w' op.collection
      ((tables w.disk op.collection).set op.docId op.line.slot)
      (op.newIndexes (tables w.disk op.collection) im)) : (directWriter.step s op).Shows c w' := by
  refine h.step directWriter op him rfl hchanged ?_
  rw [op.indexes_newIndexes (tables_wf _ _), h.tables_eq]
  refine List.map_congr_left fun e _ => ?_
  cases op <;> rfl

theorem Listing.Shows.logged (h : s.Shows c w) (e : WALEntry)
    (him : w.mem.get? e.collection = some im)
    (hchanged : Changed w w' e.collection (e.newTable (tables w.disk e.collection))
      (e.newIndexes (tables w.disk e.collection) im)) : (logWriter.step s e).Shows c w' := by
  refine h.step logWriter e him rfl hchanged ?_
  rw [e.indexes_newIndexes (tables_wf _ _), h.tables_eq]
  refine List.map_congr_left fun f _ => ?_
  have hremoved : e.removedKey (s.table e.collection) f.1 =
      (logWriter.keyStep f.1 ((s.table e.collection).liveRow e.docId) e).removed
        (IndexManager.keyOf f.1 (s.table e.collection) e.docId) := by
    obtain ⟨op, c, i, d⟩ := e
    cases op with
    | insert => rfl
    | update | delete =>
        show (if _ then _ else _) = if _ then _ else _
        simp [logWriter, Writer.keyStep, Table.get_eq_map_liveRow]
  rw [hremoved]
  rfl

theorem changed_direct (henv : env.Alone) (op : WriteOp) (hw : Serving w)
    (him : w.mem.get? op.collection = some im) : op.direct.value env w = .ok () ∧
      Changed w (op.direct.exec env w) op.collection
        ((tables w.disk op.collection).set op.docId op.line.slot)
        (op.newIndexes (tables w.disk op.collection) im) :=
  perform_spec_of_alone (.write op) henv hw him

/-- **A sequence of direct writes.** -/
theorem Listing.Shows.run_direct (h : s.Shows c w) {ops : List WriteOp} (henv : env.Alone)
    (hw : Serving w) (hreg : ∀ op ∈ ops, op.collection ∈ w.mem.keys) :
    (ops.forM WriteOp.direct).value env w = .ok () ∧
      Serving ((ops.forM WriteOp.direct).exec env w) ∧
      (ops.foldl directWriter.step s).Shows c ((ops.forM WriteOp.direct).exec env w) ∧
      catalog ((ops.forM WriteOp.direct).exec env w).mem = catalog w.mem := by
  have hspec : ∀ op ∈ ops, ∀ w₁ im, Serving w₁ → w₁.mem.get? op.collection = some im →
      op.direct.value env w₁ = .ok () ∧
        Changed w₁ (op.direct.exec env w₁) op.collection
          ((EngineOp.write op).newTable (tables w₁.disk op.collection))
          (op.newIndexes (tables w₁.disk op.collection) im) :=
    fun op _ _ _ hw₁ him => changed_direct henv op hw₁ him
  obtain ⟨hok, hw', -, hshows, hcatalog⟩ := forM_changed
    (fun w₁ s => s.Shows c w₁ ∧ catalog w₁.mem = catalog w.mem) directWriter.step hw hspec
    hreg ⟨h, rfl⟩ (fun op _ w₁ w₂ s im hR him hchanged => ⟨hR.1.direct op him hchanged, by
      rw [hchanged.mem, catalog_set him op.specs_newIndexes]
      exact hR.2⟩)
  exact ⟨hok, hw', hshows, hcatalog⟩

/-- **A transaction** with a new log. -/
theorem Listing.Shows.run_whole (h : s.Shows c w) {file : String} {ops : List WriteOp} (env : Env)
    (hw : Serving w) (hfresh : w.disk.wal.get? file = none) (hne : ops ≠ [])
    (hreg : ∀ op ∈ ops, op.collection ∈ w.mem.keys) :
    (Transaction.whole file ops).value env w = .ok () ∧
      Serving ((Transaction.whole file ops).exec env w) ∧
      ((WAL.dedup (walEntries ops)).foldl logWriter.step s).Shows c
        ((Transaction.whole file ops).exec env w) ∧
      catalog ((Transaction.whole file ops).exec env w).mem = catalog w.mem := by
  obtain ⟨hok, hw', -, hshows, hcatalog⟩ := whole_simulation env
    (fun w₁ s => s.Shows c w₁ ∧ catalog w₁.mem = catalog w.mem) logWriter.step hw hfresh hne hreg
    ⟨h, rfl⟩ (fun hR hmem hjsonl => ⟨hR.1.frame hmem hjsonl, hmem ▸ hR.2⟩)
    (fun op _ w₁ w₂ s im hR him hchanged => ⟨hR.1.logged op.entry.viaJson
        (by rw [op.collection_entry]; exact him) (by rw [op.collection_entry]; exact hchanged), by
      rw [hchanged.mem, catalog_set him (WALEntry.specs_newIndexes _)]
      exact hR.2⟩)
  exact ⟨hok, hw', hshows, hcatalog⟩

/-- A lookup of an indexed field yields what the first index on the field lists
under the encoded value. -/
theorem Listing.Shows.value_lookup (h : s.Shows c w) (henv : env.Alone) (hw : Serving w)
    (him : w.mem.get? c = some im) {field : String} {spec : IndexSpec}
    (hspec : im.specs.find? (fun spec => spec.fields = [field]) = some spec) (v : PyVal) :
    ∃ ids, (StorageEngine.lookup c field v).value env w = .ok ids ∧
      ∀ i, i ∈ ids ↔ s.listed c spec i v.toStr := by
  rw [IndexManager.specs, List.find?_map, Option.map_eq_some_iff] at hspec
  obtain ⟨e, hfind, rfl⟩ := hspec
  obtain ⟨hhas, hlookup, he, -⟩ := IndexManager.lookup_of_find hfind v
  refine ⟨_, JsonpySql.value_lookup henv hw him field v, fun i => ?_⟩
  rw [lookupIn, if_pos hhas, hlookup]
  exact h.mem_ids im him e he i _

end Runs

end JsonpySql
