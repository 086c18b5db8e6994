/-
JsonpySql/SchemaCalls.lean

What a call of a schema collection comes to, to the last entry of the reverse
index (`perform_outcome`).

* `refused` — it raises and nothing has changed: a check has failed, or the lock
  was taken;
* `torn`    — an update whose checks have passed raises because the lock is taken,
  after it has taken the document out from under its parents;
* `wrote`   — it performs one write of the engine, and files the document under
  its new parents instead of its old ones.

Most of what follows asks for less (`perform_settled`): the call raises, and the
table and the forward indexes are as they were, or it performs a write that its
checks have admitted.
-/
import JsonpySql.ReverseIndex

namespace JsonpySql

open StorageEngine SchemaCollection

/-! ### The reverse index of a write -/

/-- File a document under the parents its fields name. -/
def register (fields : List String) (docId : String) (document : Doc) (rev : SortedDict) :
    SortedDict :=
  editReverse (fun parentId rev => rev.add parentId docId) document fields rev

/-- Take a document out from under the parents its fields name. -/
def unregister (fields : List String) (docId : String) (document : Doc) (rev : SortedDict) :
    SortedDict :=
  editReverse (fun parentId rev => rev.remove parentId docId) document fields rev

/-- The document a direct write finds under its id, as the call reads it. -/
def WriteOp.found (op : WriteOp) (t : Table) : Option Doc :=
  match op with
  | .insert .. => none
  | .update _ i _ | .delete _ i => t.get i

/-- The reverse index after a call that has performed a write. -/
def WriteOp.newReverse (op : WriteOp) (fields : List String) (t : Table) (rev : SortedDict) :
    SortedDict :=
  let removed := match op.found t with
    | none => rev
    | some old => unregister fields op.docId old rev
  match op.document with
  | none => removed
  | some new => register fields op.docId new removed

/-- The forward indexes after a write do not depend on the reverse index. -/
theorem WriteOp.newIndexes_reverse (op : WriteOp) (t : Table) (im : IndexManager)
    (rev rev' : SortedDict) :
    { op.newIndexes t { im with reverse := rev } with reverse := rev' } =
      { op.newIndexes t im with reverse := rev' } := by
  have hrev : ReverseOnly im { im with reverse := rev } := ⟨rev, rfl⟩
  obtain ⟨rev'', heq⟩ := hrev.newIndexes op t
  rw [heq]

/-- A program that maps the reverse index, and changes nothing else. -/
theorem MapsReverse.changed {α : Type} {env : Env} {c : String} {q : EngineM α} {a : α}
    {f : SortedDict → SortedDict} (hmaps : MapsReverse env c q a f)
    (hedits : EditsReverse env c q a) {w : Database} {im : IndexManager}
    (him : w.mem.get? c = some im) : q.value env w = .ok a ∧
      Changed w (q.exec env w) c (tables w.disk c) { im with reverse := f im.reverse } := by
  obtain ⟨hok, im', -, hchanged⟩ := hedits w im him
  have hmap := (hmaps w im him).2
  obtain rfl := Option.some.inj (hchanged.get?_self.symm.trans hmap)
  exact ⟨hok, hchanged⟩

/-- A write of the engine that has its lock, and such a program after it. -/
theorem MapsReverse.after_write {α : Type} {env : Env} {q : EngineM α} {a : α}
    {f : SortedDict → SortedDict} (op : WriteOp) (hmaps : MapsReverse env op.collection q a f)
    (hedits : EditsReverse env op.collection q a) {w : Database} {im : IndexManager}
    (hw : Serving w) (him : w.mem.get? op.collection = some im)
    (hfree : LockManager.blocked env (jsonlPath op.collection) .exclusive = false) :
    let t := tables w.disk op.collection
    (op.direct >>= fun _ => q).value env w = .ok a ∧
      Changed w ((op.direct >>= fun _ => q).exec env w) op.collection
        (t.set op.docId op.line.slot)
        { op.newIndexes t im with reverse := f im.reverse } := by
  intro t
  obtain ⟨hvalue, hperform⟩ := perform_spec (.write op) hw him hfree
  have hok : op.direct.value env w = .ok () := hvalue
  have hchanged : Changed w (op.direct.exec env w) op.collection (t.set op.docId op.line.slot)
      (op.newIndexes t im) := hperform
  obtain ⟨hok', hchanged'⟩ := hmaps.changed hedits hchanged.get?_self
  rw [hchanged.table_self, op.reverse_newIndexes] at hchanged'
  rw [Prog.value_bind_ok hok, Prog.exec_bind_ok hok]
  exact ⟨hok', hchanged.trans hchanged'⟩

namespace SchemaCollection

variable {self : SchemaCollection} {env : Env} {w : Database} {im : IndexManager} {α : Type}

/-- The checks that let an insert through. -/
theorem Admits.of_insert {document : Doc} {op : WriteOp}
    (h : Admits self env w (.insert document) op) : ∃ validated docId,
      op = .insert self.name docId validated ∧ self.model.dump document = .ok validated ∧
      (self.extractOrGenerateId validated).value env w = .ok docId ∧
      (self.uniqueChecker.checkInsert validated).value env w = .ok () ∧
      (self.checkChild validated).value env w = .ok () := by
  cases h with
  | insert hvalid hid hunique hchild => exact ⟨_, _, rfl, hvalid, hid, hunique, hchild⟩

/-- The checks that let an update through. -/
theorem Admits.of_update {docId : String} {document : Doc} {op : WriteOp}
    (h : Admits self env w (.update docId document) op) : ∃ validated,
      op = .update self.name docId validated ∧ self.model.dump document = .ok validated ∧
      (tables w.disk self.name).get docId ≠ none ∧
      (self.uniqueChecker.checkUpdate docId validated).value env w = .ok () ∧
      (self.checkChild validated).value env w = .ok () := by
  cases h with
  | update hvalid hlive hunique hchild => exact ⟨_, rfl, hvalid, hlive, hunique, hchild⟩

/-- An admitted insert passes every check on what its document validates to. -/
theorem Admits.insert_checks {document validated : Doc} {op : WriteOp}
    (h : Admits self env w (.insert document) op)
    (hvalid : self.model.dump document = .ok validated) :
    (∃ docId, (self.extractOrGenerateId validated).value env w = .ok docId) ∧
      (self.uniqueChecker.checkInsert validated).value env w = .ok () ∧
      (self.checkChild validated).value env w = .ok () := by
  obtain ⟨_, docId, -, hvalid', hid, hunique, hchild⟩ := h.of_insert
  obtain rfl := Except.ok.inj (hvalid.symm.trans hvalid')
  exact ⟨⟨docId, hid⟩, hunique, hchild⟩

/-- So does an admitted update. -/
theorem Admits.update_checks {docId : String} {document validated : Doc} {op : WriteOp}
    (h : Admits self env w (.update docId document) op)
    (hvalid : self.model.dump document = .ok validated) :
    (self.uniqueChecker.checkUpdate docId validated).value env w = .ok () ∧
      (self.checkChild validated).value env w = .ok () := by
  obtain ⟨_, -, hvalid', -, hunique, hchild⟩ := h.of_update
  obtain rfl := Except.ok.inj (hvalid.symm.trans hvalid')
  exact ⟨hunique, hchild⟩

/-- The checks let one write through at most. -/
theorem Admits.unique {request : SchemaCall} {op op' : WriteOp}
    (h : Admits self env w request op) (h' : Admits self env w request op') : op' = op := by
  cases h with
  | insert hvalid hid =>
      obtain ⟨_, _, rfl, hvalid', hid', -⟩ := h'.of_insert
      obtain rfl := Except.ok.inj (hvalid.symm.trans hvalid')
      obtain rfl := Except.ok.inj (hid.symm.trans hid')
      rfl
  | update hvalid =>
      obtain ⟨_, rfl, hvalid', -⟩ := h'.of_update
      obtain rfl := Except.ok.inj (hvalid.symm.trans hvalid')
      rfl
  | delete docId =>
      cases h'
      rfl

/-- What a call comes to. -/
inductive CallOutcome (self : SchemaCollection) (env : Env) (w : Database) (im : IndexManager)
    (call : SchemaCall) (returned : WriteOp → α) (o : Outcome PyErr Registry DiskWrite α) : Prop
  | refused {e : PyErr} (hrun : o = ⟨.error e, w.mem, []⟩)
      (hwhy : ∀ op, Admits self env w call op →
        LockManager.blocked env (jsonlPath self.name) .exclusive = true ∧
          ∀ i d, call = .update i d →
            LockManager.blocked env (jsonlPath self.name) .shared = true)
  | torn {docId : String} {document validated old : Doc} (hcall : call = .update docId document)
      (hadmits : Admits self env w call (.update self.name docId validated))
      (hshared : LockManager.blocked env (jsonlPath self.name) .shared = false)
      (hheld : LockManager.blocked env (jsonlPath self.name) .exclusive = true)
      (hold : (tables w.disk self.name).get docId = some old)
      (herror : o.result = .error (LockManager.timeoutError env .exclusive))
      (hchanged : Changed w ⟨o.mem, applyAll w.disk o.writes⟩ self.name (tables w.disk self.name)
        { im with reverse := unregister self.fkMeta.keys docId old im.reverse })
  | wrote {op : WriteOp} (hadmits : Admits self env w call op)
      (hfree : LockManager.blocked env (jsonlPath self.name) .exclusive = false)
      (hok : o.result = .ok (returned op))
      (hchanged : Changed w ⟨o.mem, applyAll w.disk o.writes⟩ self.name
        ((tables w.disk self.name).set op.docId op.line.slot)
        { op.newIndexes (tables w.disk self.name) im with
          reverse := op.newReverse self.fkMeta.keys (tables w.disk self.name) im.reverse })

/-- An insert or a delete that was admitted. -/
theorem CallOutcome.of_write {q : EngineM α} {call : SchemaCall} {returned : WriteOp → α}
    {f : SortedDict → SortedDict} (op : WriteOp) (hw : Serving w)
    (him : w.mem.get? self.name = some im) (hop : op.collection = self.name)
    (hadmits : Admits self env w call op) (hother : ∀ i d, call ≠ .update i d)
    (hmaps : MapsReverse env self.name q (returned op) f)
    (hedits : EditsReverse env self.name q (returned op))
    (hf : f im.reverse = op.newReverse self.fkMeta.keys (tables w.disk self.name) im.reverse) :
    CallOutcome self env w im call returned ((op.direct >>= fun _ => q).run env w) := by
  rcases hheld : LockManager.blocked env (jsonlPath self.name) .exclusive with _ | _
  · rw [← hop] at him hmaps hedits
    obtain ⟨hok, hchanged⟩ := hmaps.after_write op hedits hw him (hop.symm ▸ hheld)
    rw [hop, hf] at hchanged
    exact .wrote hadmits hheld hok hchanged
  · have hc : op.collection ∈ w.mem.keys := hop ▸ OrdDict.mem_keys_of_get? him
    have hrun := run_perform_of_blocked (.write op) hw hc (hop.symm ▸ hheld)
    refine .refused (Prog.run_bind_error hrun) fun op' _ => ⟨hheld, fun i d hcall => ?_⟩
    exact absurd hcall (hother i d)

theorem insert_outcome (env : Env) (hw : Serving w) (him : w.mem.get? self.name = some im)
    (document : Doc) : CallOutcome self env w im (.insert document) WriteOp.docId
      ((self.insert document).run env w) := by
  refine (Validator.readOnly_validate _ _).bind_rule (fun e he => ?_) fun validated hvalidate => ?_
  · refine .refused rfl fun op hadmits => ?_
    obtain ⟨_, _, -, hvalid, -⟩ := hadmits.of_insert
    cases he.symm.trans (Validator.value_validate.mpr hvalid)
  have hvalid := Validator.value_validate.mp hvalidate
  refine readOnly_extractOrGenerateId.bind_rule (fun e he => ?_) fun docId hid => ?_
  · refine .refused rfl fun op hadmits => ?_
    obtain ⟨⟨_, hid⟩, -⟩ := hadmits.insert_checks hvalid
    cases he.symm.trans hid
  refine UniqueConstraintChecker.readOnly_checkFields.bind_rule (fun e he => ?_)
    fun _ hunique => ?_
  · refine .refused rfl fun op hadmits => ?_
    cases he.symm.trans (hadmits.insert_checks hvalid).2.1
  refine readOnly_checkChild.bind_rule (fun e he => ?_) fun _ hchild => ?_
  · refine .refused rfl fun op hadmits => ?_
    cases he.symm.trans (hadmits.insert_checks hvalid).2.2
  refine CallOutcome.of_write (.insert self.name docId validated) hw him rfl
    (.insert hvalid hid hunique hchild) (by simp)
    ((mapsReverse_registerFkReverse env docId validated).bind (MapsReverse.pure env _ docId))
    ((editsReverse_registerFkReverse env docId validated).bind (EditsReverse.pure env _ docId)) ?_
  rfl

/-- An insert that passes its checks and has its lock returns the id. -/
theorem value_insert (hw : Serving w) (hc : self.name ∈ w.mem.keys) {document : Doc}
    {op : WriteOp} (hadmits : Admits self env w (.insert document) op)
    (hfree : LockManager.blocked env (jsonlPath self.name) .exclusive = false) :
    (self.insert document).value env w = .ok op.docId := by
  obtain ⟨im, him⟩ := OrdDict.exists_get?_of_mem hc
  cases insert_outcome env hw him document with
  | refused hrun hwhy =>
      rw [(hwhy op hadmits).1] at hfree
      cases hfree
  | torn hcall => cases hcall
  | wrote hadmits' _ hok _ => exact hadmits'.unique hadmits ▸ hok

/-- **The writing part of an update**: the stored document is taken out from under
its parents before the new one is written, and the write may not get its lock. -/
theorem rewrite_cases (env : Env) (hw : Serving w) (him : w.mem.get? self.name = some im)
    {docId : String} {oldDoc : Doc} (hold : (tables w.disk self.name).get docId = some oldDoc)
    (validated : Doc) :
    let rewrite := self.unregisterFkReverse docId oldDoc >>= fun _ =>
      StorageEngine.update self.name docId validated >>= fun _ =>
        self.registerFkReverse docId validated
    let op : WriteOp := .update self.name docId validated
    let t := tables w.disk self.name
    (LockManager.blocked env (jsonlPath self.name) .exclusive = true ∧
      rewrite.value env w = .error (LockManager.timeoutError env .exclusive) ∧
      Changed w (rewrite.exec env w) self.name t
        { im with reverse := unregister self.fkMeta.keys docId oldDoc im.reverse }) ∨
    (LockManager.blocked env (jsonlPath self.name) .exclusive = false ∧
      rewrite.value env w = .ok () ∧
      Changed w (rewrite.exec env w) self.name (t.set docId op.line.slot)
        { op.newIndexes t im with reverse := op.newReverse self.fkMeta.keys t im.reverse }) := by
  intro rewrite op t
  have hc : self.name ∈ w.mem.keys := OrdDict.mem_keys_of_get? him
  obtain ⟨hok₁, hchanged₁⟩ := (mapsReverse_unregisterFkReverse env docId oldDoc).changed
    (editsReverse_unregisterFkReverse env docId oldDoc) him
  have hw₁ := hchanged₁.serving hc hw
  have hvalue := Prog.value_bind_ok (f := fun _ => StorageEngine.update self.name docId validated
    >>= fun _ => self.registerFkReverse docId validated) hok₁
  have hexec := Prog.exec_bind_ok (f := fun _ => StorageEngine.update self.name docId validated
    >>= fun _ => self.registerFkReverse docId validated) hok₁
  rcases hheld : LockManager.blocked env (jsonlPath self.name) .exclusive with _ | _
  · obtain ⟨hok, hchanged⟩ := (mapsReverse_registerFkReverse env docId validated).after_write
      op (editsReverse_registerFkReverse env docId validated) hw₁ hchanged₁.get?_self hheld
    rw [WriteOp.newIndexes_reverse] at hchanged
    have htable : tables ((self.unregisterFkReverse docId oldDoc).exec env w).disk self.name = t :=
      hchanged₁.table_self
    have hreverse : op.newReverse self.fkMeta.keys t im.reverse = register self.fkMeta.keys docId
        validated (unregister self.fkMeta.keys docId oldDoc im.reverse) := by
      simp [op, t, WriteOp.newReverse, WriteOp.found, WriteOp.document, WriteOp.docId, hold]
    refine Or.inr ⟨rfl, hvalue.trans hok, ?_⟩
    rw [hexec, hreverse, ← htable]
    exact hchanged₁.trans hchanged
  · have hc₁ : self.name ∈ ((self.unregisterFkReverse docId oldDoc).exec env w).mem.keys :=
      hchanged₁.keys hc ▸ hc
    have hrun := run_perform_of_blocked (.write op) hw₁ hc₁ hheld
    have hraise : (StorageEngine.update self.name docId validated >>= fun _ =>
        self.registerFkReverse docId validated).run env
          ((self.unregisterFkReverse docId oldDoc).exec env w) = _ :=
      Prog.run_bind_error hrun
    refine Or.inl ⟨rfl, hvalue.trans (congrArg Outcome.result hraise), ?_⟩
    rw [hexec, Prog.exec, hraise]
    exact hchanged₁

theorem update_outcome (env : Env) (hw : Serving w) (him : w.mem.get? self.name = some im)
    (docId : String) (document : Doc) :
    CallOutcome self env w im (.update docId document) (fun _ => ())
      ((self.update docId document).run env w) := by
  have hc : self.name ∈ w.mem.keys := OrdDict.mem_keys_of_get? him
  refine (Validator.readOnly_validate _ _).bind_rule (fun e he => ?_) fun validated hvalidate => ?_
  · refine .refused rfl fun op hadmits => ?_
    obtain ⟨_, -, hvalid, -⟩ := hadmits.of_update
    cases he.symm.trans (Validator.value_validate.mpr hvalid)
  have hvalid := Validator.value_validate.mp hvalidate
  refine (readOnly_engine_get _ _).bind_rule (fun e he => ?_) fun oldDoc hget => ?_
  -- the read did not get its lock
  · obtain ⟨hheld, -⟩ := get_error hw hc he
    exact .refused rfl fun op _ => ⟨LockManager.blocked_exclusive hheld, fun _ _ _ => hheld⟩
  have hshared := free_of_get hw hc hget
  have hold := get_of_ok hw hc hget
  cases oldDoc with
  | none =>
      refine .refused rfl fun op hadmits => ?_
      obtain ⟨_, -, -, hlive, -⟩ := hadmits.of_update
      exact absurd hold.symm hlive
  | some oldDoc =>
      refine UniqueConstraintChecker.readOnly_checkFields.bind_rule (fun e he => ?_)
        fun _ hunique => ?_
      · refine .refused rfl fun op hadmits => ?_
        cases he.symm.trans (hadmits.update_checks hvalid).1
      refine readOnly_checkChild.bind_rule (fun e he => ?_) fun _ hchild => ?_
      · refine .refused rfl fun op hadmits => ?_
        cases he.symm.trans (hadmits.update_checks hvalid).2
      have hlive : (tables w.disk self.name).get docId ≠ none := by
        rw [← hold]
        simp
      have hadmits :
          Admits self env w (.update docId document) (.update self.name docId validated) :=
        .update hvalid hlive hunique hchild
      obtain ⟨hheld, herror, hchanged⟩ | ⟨hfree, hok, hchanged⟩ :=
        rewrite_cases env hw him hold.symm validated
      · exact .torn rfl hadmits hshared hheld hold.symm herror hchanged
      · exact .wrote hadmits hfree hok hchanged

theorem delete_outcome (env : Env) (hw : Serving w) (him : w.mem.get? self.name = some im)
    (docId : String) : CallOutcome self env w im (.delete docId) (fun _ => ())
      ((self.delete docId).run env w) := by
  have hc : self.name ∈ w.mem.keys := OrdDict.mem_keys_of_get? him
  refine (readOnly_pass _).bind_rule (fun e he => ?_) fun _ _ => ?_
  · have hok : (self.fkCheckers.values.forM fun _ => (pure () : EngineM Unit)).value env w =
        .ok () := (Prog.value_forM_of_readOnly fun _ _ => Prog.readOnly_pure _).mpr fun _ _ => rfl
    cases he.symm.trans hok
  refine (readOnly_engine_get _ _).bind_rule (fun e he => ?_) fun doc hget => ?_
  · obtain ⟨hheld, -⟩ := get_error hw hc he
    exact .refused rfl fun op _ => ⟨LockManager.blocked_exclusive hheld, fun _ _ _ => hheld⟩
  have hold := get_of_ok hw hc hget
  cases doc with
  | none =>
      refine CallOutcome.of_write (.delete self.name docId) hw him rfl (.delete docId) (by simp)
        (MapsReverse.pure env _ ()) (EditsReverse.pure env _ ()) ?_
      simp [WriteOp.newReverse, WriteOp.found, WriteOp.document, ← hold]
  | some doc =>
      refine CallOutcome.of_write (.delete self.name docId) hw him rfl (.delete docId) (by simp)
        (mapsReverse_unregisterFkReverse env docId doc)
        (editsReverse_unregisterFkReverse env docId doc) ?_
      simp [WriteOp.newReverse, WriteOp.found, WriteOp.document, WriteOp.docId, ← hold, unregister]

/-- **What a call comes to.** -/
theorem perform_outcome (env : Env) (hw : Serving w) (him : w.mem.get? self.name = some im)
    (request : SchemaCall) :
    CallOutcome self env w im request (fun _ => ()) ((request.perform self).run env w) := by
  cases request with
  | insert document =>
      cases insert_outcome env hw him document with
      | refused hrun hwhy => exact .refused (Prog.run_bind_error hrun) hwhy
      | torn hcall => cases hcall
      | wrote hadmits hfree hok hchanged =>
          refine .wrote hadmits hfree (Prog.value_bind_ok hok) ?_
          show Changed w ((self.insert document >>= fun _ => pure ()).exec env w) _ _ _
          rw [Prog.exec_bind_ok hok]
          exact hchanged
  | update docId document => exact update_outcome env hw him docId document
  | delete docId => exact delete_outcome env hw him docId

/-! ### Without the reverse index -/

/-- What a call comes to: it raises, and only the reverse index may differ, or
it performs one write. -/
def Settled {α : Type} (self : SchemaCollection) (env : Env) (w : Database) (im : IndexManager)
    (call : SchemaCall) (o : Outcome PyErr Registry DiskWrite α) : Prop :=
  let w' : Database := ⟨o.mem, applyAll w.disk o.writes⟩
  let t := tables w.disk self.name
  (∃ e im', o.result = .error e ∧ ReverseOnly im im' ∧ Changed w w' self.name t im') ∨
    ∃ op im', Admits self env w call op ∧ (∃ a, o.result = .ok a) ∧
      ReverseOnly (op.newIndexes t im) im' ∧
      Changed w w' self.name (t.set op.docId op.line.slot) im'

/-- **What a call does** to the table and the forward indexes. -/
theorem perform_settled (env : Env) (hw : Serving w) (him : w.mem.get? self.name = some im)
    (call : SchemaCall) :
    Settled self env w im call ((call.perform self).run env w) := by
  cases perform_outcome env hw him call with
  | refused hrun =>
      rw [hrun]
      exact Or.inl ⟨_, im, rfl, ReverseOnly.refl im, Changed.refl him⟩
  | torn _ _ _ _ _ herror hchanged => exact Or.inl ⟨_, _, herror, ⟨_, rfl⟩, hchanged⟩
  | wrote hadmits _ hok hchanged =>
      exact Or.inr ⟨_, _, hadmits, ⟨_, hok⟩, ⟨_, rfl⟩, hchanged⟩

end SchemaCollection

end JsonpySql
