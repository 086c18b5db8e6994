/-
JsonpySql/LostChildren.lean

What a rebuild makes of the reverse index.

No document says later under whom it was listed.  A rebuild computes the forward
indexes from the documents and starts the reverse index from nothing, at a
compaction and at an open that misses an `.idx` file alike
(`getChildren_rebuilt`).  So the children of a parent survive rebuilds just as
long as there are none (`children_kept_iff`).
-/
import JsonpySql.Compaction
import JsonpySql.Loading
import JsonpySql.ReferentialIntegrity

namespace JsonpySql

open StorageEngine

/-- The document a call is given. -/
def SchemaCall.document : SchemaCall → Option Doc
  | .insert document | .update _ document => some document
  | .delete _ => none

namespace SchemaCollection

variable {self : SchemaCollection} {env : Env} {w : Database} {im : IndexManager}
  {document : Doc} {docId parentId : String}

/-! ### One call -/

/-- A call that returns stores a document that refers to this parent. -/
def StoresReference (self : SchemaCollection) (parentId : String) (request : SchemaCall) : Prop :=
  ∃ document validated, request.document = some document ∧
    self.model.dump document = .ok validated ∧ NamesParent self.fkMeta.keys validated parentId

/-- Registering the document a call stores lists somebody under a parent just if
the call stores a reference to it. -/
theorem ids_registered_stored (request : SchemaCall) {validated : Doc} {rev : SortedDict}
    (hdocument : request.document = some document)
    (hvalid : self.model.dump document = .ok validated)
    (hnone : InvertedIndex.ids rev parentId = []) :
    InvertedIndex.ids (editReverse (fun parentId rev => rev.add parentId docId) validated
      self.fkMeta.keys rev) parentId = [] ↔ ¬self.StoresReference parentId request := by
  have hstores : self.StoresReference parentId request ↔
      NamesParent self.fkMeta.keys validated parentId := by
    constructor
    · rintro ⟨document', validated', hdocument', hvalid', href⟩
      obtain rfl := Option.some.inj (hdocument.symm.trans hdocument')
      obtain rfl := Except.ok.inj (hvalid.symm.trans hvalid')
      exact href
    · exact fun href => ⟨document, validated, hdocument, hvalid, href⟩
  rw [hstores]
  exact ids_registered.trans (and_iff_right hnone)

theorem not_storesReference_delete : ¬self.StoresReference parentId (.delete docId) := by
  rintro ⟨document, validated, hdocument, -⟩
  cases hdocument

/-- After a program a parent that had no children has some just if the program
returns and `stored`. -/
def ChildlessAfter {α : Type} (c parentId : String) (stored : Prop)
    (o : Outcome PyErr Registry DiskWrite α) : Prop :=
  ∃ im', o.mem.get? c = some im' ∧
    (im'.getChildren parentId = [] ↔ ∀ a, o.result = .ok a → ¬stored)

/-- A write lists somebody under a parent without children just if the call
stores a reference to it. -/
theorem ids_newReverse {request : SchemaCall} {op : WriteOp}
    (hadmits : Admits self env w request op) {rev : SortedDict}
    (hnone : InvertedIndex.ids rev parentId = []) :
    InvertedIndex.ids (op.newReverse self.fkMeta.keys (tables w.disk self.name) rev) parentId = []
      ↔ ¬self.StoresReference parentId request := by
  cases hadmits with
  | insert hvalid => exact ids_registered_stored _ rfl hvalid hnone
  | @update docId _ _ hvalid hlive =>
      -- taking the old references out lists nobody
      obtain ⟨old, hold⟩ := Option.ne_none_iff_exists'.mp hlive
      have hremoved := ids_unregistered docId old self.fkMeta.keys hnone
      simp only [WriteOp.newReverse, WriteOp.found, WriteOp.document, hold]
      exact ids_registered_stored _ rfl hvalid hremoved
  | delete docId =>
      refine iff_of_true ?_ not_storesReference_delete
      rcases hold : (tables w.disk self.name).get docId with _ | old <;>
        simp only [WriteOp.newReverse, WriteOp.found, WriteOp.document, hold]
      · exact hnone
      · exact ids_unregistered docId old self.fkMeta.keys hnone

/-- **What a call does to a parent without children.** -/
theorem childlessAfter_perform (env : Env) (hw : Serving w)
    (him : w.mem.get? self.name = some im) (hnone : im.getChildren parentId = [])
    (request : SchemaCall) : ChildlessAfter self.name parentId
      (self.StoresReference parentId request) ((request.perform self).run env w) := by
  cases perform_outcome env hw him request with
  | refused hrun =>
      rw [hrun]
      exact ⟨im, him, iff_of_true hnone nofun⟩
  | torn _ _ _ _ _ herror hchanged =>
      refine ⟨_, hchanged.get?_self, iff_of_true (ids_unregistered _ _ _ hnone) ?_⟩
      exact fun a hok => nomatch herror.symm.trans hok
  | wrote hadmits _ hok hchanged =>
      refine ⟨_, hchanged.get?_self, (ids_newReverse hadmits hnone).trans ?_⟩
      exact ⟨fun h _ _ => h, fun h => h _ hok⟩

end SchemaCollection

/-! ### Rebuilt databases -/

/-- A directory that has lost index files, one of them of collection `c` and of no
other: the next open rebuilds the indexes of `c`. -/
structure LostIndexes (w : Database) (c : String) (d : Disk) : Prop where
  data : w.disk.SameData d
  ridx : d.ridx = w.disk.ridx
  idx : ∀ path, d.idx path = w.disk.idx path ∨ d.idx path = none
  missing : ∃ im, w.mem.get? c = some im ∧ ∃ spec ∈ im.specs,
    d.idx (IndexManager.idxPath c spec) = none ∧ ∀ c' im', c' ≠ c → w.mem.get? c' = some im' →
      IndexManager.idxPath c spec ∉ IndexManager.idxPaths c' im'.specs

/-- The databases after the indexes of collection `c` were rebuilt: by a
compaction, or by opening a directory again that misses an index file. -/
inductive Rebuilt (env : Env) (c : String) (w : Database) : Database → Prop
  | compact : Rebuilt env c w ((StorageEngine.compact c).exec env w)
  | reopen (d : Disk) (h : LostIndexes w c d) :
      Rebuilt env c w (init.exec env ⟨OrdDict.empty, d⟩)

/-- A parent has the same children in two databases, and a check before its
deletion answers alike. -/
def SameChildren (env : Env) (c parentId : String) (w w' : Database) : Prop :=
  (∃ ids ids', (StorageEngine.getChildren c parentId).value env w = .ok ids ∧
    (StorageEngine.getChildren c parentId).value env w' = .ok ids' ∧ ∀ i, i ∈ ids' ↔ i ∈ ids) ∧
  ∀ checker : ReferentialIntegrityChecker, checker.childCollection = c →
    (checker.checkParentDelete parentId).value env w' =
      (checker.checkParentDelete parentId).value env w

/-- Rebuilding keeps the children of a parent. -/
def KeepsChildren (env : Env) (c parentId : String) (w : Database) : Prop :=
  ∀ w', Rebuilt env c w w' → SameChildren env c parentId w w'

section Rebuilds

variable {env : Env} {w w' : Database} {c parentId : String} {im : IndexManager}

/-- A rebuilt reverse index lists nobody. -/
theorem getChildren_rebuild (im : IndexManager) (documents : List Record) :
    (im.rebuild documents).getChildren parentId = [] := by
  rw [IndexManager.rebuild_eq]
  exact InvertedIndex.ids_empty parentId

/-- A turn of the loading loop registers its collection and writes its files. -/
theorem loadCollection_effect (env : Env) {name : String} {specs : List IndexSpec}
    (hfile : (w.disk.jsonl (jsonlPath name)).isSome)
    (htext : IndexManager.Readable w.disk name specs) :
    ((loadCollection name specs).exec env w).mem =
        w.mem.set name (openedIndexes env w.disk name specs) ∧
      ∀ path ∉ IndexManager.idxPaths name specs,
        ((loadCollection name specs).exec env w).disk.idx path = w.disk.idx path := by
  rw [Prog.exec, run_loadCollection env hfile htext]
  refine ⟨rfl, fun path hpath => ?_⟩
  show (applyAll w.disk (if _ then _ else _)).idx path = _
  split
  · apply IndexManager.idx_saveWrites_of_notMem
    rw [collection_openedIndexes, specs_openedIndexes]
    exact hpath
  · rfl

/-- Loading other collections leaves one alone. -/
theorem loadEntries_keeps {l : List (String × List IndexSpec)}
    (hok : (l.forM fun e => loadCollection e.1 e.2).value env w = .ok ())
    (hfiles : ∀ e ∈ l, (w.disk.jsonl (jsonlPath e.1)).isSome)
    (htext : ∀ e ∈ l, IndexManager.Readable w.disk e.1 e.2) (hnot : c ∉ l.map Prod.fst) :
    ((l.forM fun e => loadCollection e.1 e.2).exec env w).mem.get? c = w.mem.get? c := by
  refine (Prog.forM_keeps (P := fun w' : Database =>
    w.disk.SameData w'.disk ∧ w'.mem.get? c = w.mem.get? c) ⟨.refl _, rfl⟩ ?_ hok).2
  rintro e he w' ⟨hdata, hget⟩ -
  have hfile : (w'.disk.jsonl (jsonlPath e.1)).isSome := hdata.jsonl ▸ hfiles e he
  have htext' := (htext e he).keep hdata.text
  obtain ⟨-, -, hsame, -⟩ := loadCollection_turn env hfile htext'
  have hne : c ≠ e.1 := fun heq => hnot (heq ▸ List.mem_map_of_mem he)
  refine ⟨hdata.trans hsame, ?_⟩
  rw [(loadCollection_effect env hfile htext').1, OrdDict.get?_set_of_ne _ _ hne]
  exact hget

/-- **Loading a collection with a missing index file rebuilds it**, wherever it
stands in the loop. -/
theorem loadEntries_rebuilds {l : List (String × List IndexSpec)} {specs : List IndexSpec}
    {path : String} (hok : (l.forM fun e => loadCollection e.1 e.2).value env w = .ok ())
    (hfiles : ∀ e ∈ l, (w.disk.jsonl (jsonlPath e.1)).isSome)
    (htext : ∀ e ∈ l, IndexManager.Readable w.disk e.1 e.2)
    (hkeys : (l.map Prod.fst).Nodup) (hc : (c, specs) ∈ l)
    (hpath : path ∈ IndexManager.idxPaths c specs) (hmissing : w.disk.idx path = none)
    (hothers : ∀ e ∈ l, e.1 ≠ c → path ∉ IndexManager.idxPaths e.1 e.2) :
    ∃ (im : IndexManager) (documents : List Record),
      ((l.forM fun e => loadCollection e.1 e.2).exec env w).mem.get? c =
        some (im.rebuild documents) := by
  induction l generalizing w with
  | nil => cases hc
  | cons e l ih =>
      rw [List.map_cons, List.nodup_cons] at hkeys
      have hfile := hfiles e List.mem_cons_self
      have htexte := htext e List.mem_cons_self
      obtain ⟨hturn, -, hsame, -⟩ := loadCollection_turn env hfile htexte
      obtain ⟨hmem, hidx⟩ := loadCollection_effect env hfile htexte
      have hbind : (loadCollection e.1 e.2 >>= fun _ =>
        l.forM fun e => loadCollection e.1 e.2).value env w = .ok () := hok
      rw [Prog.value_bind_ok hturn] at hbind
      have hexec : ((e :: l).forM fun e => loadCollection e.1 e.2).exec env w = _ :=
        Prog.exec_bind_ok hturn
      rw [hexec]
      set w₁ := (loadCollection e.1 e.2).exec env w
      have hfiles₁ : ∀ e' ∈ l, (w₁.disk.jsonl (jsonlPath e'.1)).isSome := by
        intro e' he'
        rw [hsame.jsonl]
        exact hfiles e' (List.mem_cons_of_mem _ he')
      have htext₁ : ∀ e' ∈ l, IndexManager.Readable w₁.disk e'.1 e'.2 := fun e' he' =>
        (htext e' (List.mem_cons_of_mem _ he')).keep hsame.text
      obtain rfl | hrest := List.mem_cons.mp hc
      · -- its own turn rebuilds it, and the later ones register other collections
        obtain ⟨spec, hspec, rfl⟩ := List.mem_map.mp hpath
        rw [openedIndexes_of_missing (missingIdx_iff.mpr ⟨spec, hspec, hmissing⟩) env] at hmem
        exact ⟨_, _, (loadEntries_keeps hbind hfiles₁ htext₁ hkeys.1).trans
          (hmem ▸ OrdDict.get?_set_self ..)⟩
      · have hne : e.1 ≠ c := fun heq => hkeys.1 (heq ▸ List.mem_map_of_mem hrest)
        have hnot := hothers e List.mem_cons_self hne
        exact ih hbind hfiles₁ htext₁ hkeys.2 hrest ((hidx path hnot).trans hmissing)
          fun e' he' => hothers e' (List.mem_cons_of_mem _ he')

/-- **After a rebuild no parent has children.** -/
theorem getChildren_rebuilt (henv : env.Alone) (hw : Consistent w)
    (hlogs : w.disk.wal = OrdDict.empty) (hc : c ∈ w.mem.keys) (h : Rebuilt env c w w')
    (parentId : String) :
    ∃ im, w'.mem.get? c = some im ∧ im.getChildren parentId = [] := by
  cases h with
  | compact =>
      obtain ⟨im, him⟩ := OrdDict.exists_get?_of_mem hc
      obtain ⟨-, hchanged⟩ := compact_spec hw.serving him
        (LockManager.blocked_of_alone henv (jsonlPath c) .exclusive)
      exact ⟨im.rebuild _, hchanged.get?_self,
        getChildren_rebuild im (DocumentStore.rows (tables w.disk c))⟩
  | reopen d hlost =>
      obtain ⟨im, him, spec, hspec, hmissing, hothers⟩ := hlost.missing
      have hholds := hw.isOpen.holds.sameData hlost.data
      obtain ⟨hok, hopen, -⟩ := loadManifest_spec env hholds
      have hrun := run_loadManifest env hholds.manifest
      have hloop : ((catalog w.mem).entries.forM fun e => loadCollection e.1 e.2).value env
          ⟨OrdDict.empty, d⟩ = .ok () := (congrArg Outcome.result hrun).symm.trans hok
      obtain ⟨im', documents, him'⟩ := loadEntries_rebuilds hloop
        (fun e he => hholds.files e.1 (List.mem_map_of_mem he)) hholds.text (catalog w.mem).nodup
        (OrdDict.mem_entries_iff.mpr (get?_catalog him)) (List.mem_map_of_mem hspec) hmissing
        (fun e he hne => by
          obtain ⟨im', him', hspecs⟩ := exists_of_catalog (OrdDict.mem_entries_iff.mp he)
          rw [← hspecs]
          exact hothers e.1 im' hne him')
      refine ⟨_, ?_, getChildren_rebuild im' documents⟩
      -- there is no log to replay
      have hinit : init.exec env ⟨OrdDict.empty, d⟩ =
          loadManifest.exec env ⟨OrdDict.empty, d⟩ := by
        have hexec : init.exec env ⟨OrdDict.empty, d⟩ = _ := Prog.exec_bind_ok hok
        rw [hexec, Prog.exec, run_recoverWal_nil env (hopen.holds.wal.trans hlogs)]
        rfl
      rw [hinit, Prog.exec, hrun]
      exact him'

/-- **Rebuilding keeps the children of a parent just if it has none.** -/
theorem keepsChildren_iff (henv : env.Alone) (hw : Consistent w)
    (hlogs : w.disk.wal = OrdDict.empty) (hc : c ∈ w.mem.keys) :
    KeepsChildren env c parentId w ↔
      (StorageEngine.getChildren c parentId).value env w = .ok [] := by
  obtain ⟨im, him⟩ := OrdDict.exists_get?_of_mem hc
  rw [value_getChildren him]
  constructor
  · intro hkeeps
    obtain ⟨im', him', hnone⟩ := getChildren_rebuilt henv hw hlogs hc .compact parentId
    obtain ⟨⟨ids, ids', hids, hids', hsame⟩, -⟩ := hkeeps _ .compact
    rw [value_getChildren him] at hids
    rw [value_getChildren him', hnone] at hids'
    obtain rfl := Except.ok.inj hids
    obtain rfl := Except.ok.inj hids'
    exact congrArg Except.ok (List.eq_nil_iff_forall_not_mem.mpr fun i hi =>
      List.not_mem_nil ((hsame i).mpr hi))
  · intro hnone w' hrebuilt
    obtain ⟨im', him', hnone'⟩ := getChildren_rebuilt henv hw hlogs hc hrebuilt parentId
    have hlist : im.getChildren parentId = [] := Except.ok.inj hnone
    refine ⟨⟨[], [], ?_, ?_, fun i => Iff.rfl⟩, fun checker hchecker => ?_⟩
    · rw [value_getChildren him, hlist]
    · rw [value_getChildren him', hnone']
    · -- without children a deletion is let through
      have hpass : ∀ (w₁ : Database) im₁, w₁.mem.get? c = some im₁ →
          im₁.getChildren parentId = [] →
          (checker.checkParentDelete parentId).value env w₁ = .ok () := by
        intro w₁ im₁ him₁ hnone₁
        rw [ReferentialIntegrityChecker.value_checkParentDelete]
        intro _
        rw [ReferentialIntegrityChecker.children, hchecker, him₁]
        exact hnone₁
      rw [hpass w' im' him' hnone', hpass w im him hlist]

end Rebuilds

/-! ### Runs -/

/-- The step is no call on `C` that returns and stores a reference to this
parent. -/
def StoresNoReference (C : SchemaCollection) (parentId : String) (w : Database) (env : Env)
    (step : SchemaStep) : Prop :=
  ∀ request, step = .call C request → (request.perform C).value env w = .ok () →
    ¬C.StoresReference parentId request

section Steps

variable {C : SchemaCollection} {env : Env} {w w' : Database} {step : SchemaStep}
  {parentId : String}

/-- A step keeps the manifest, the logs and the collections. -/
theorem StepEffect.consistent (h : StepEffect env w step w') (hw : Consistent w) :
    Consistent w' ∧ w'.disk.wal = w.disk.wal ∧ w'.mem.keys = w.mem.keys := by
  obtain ⟨-, hkeys⟩ := h.serving hw.serving
  have hkeep : ∀ c im t' im', w.mem.get? c = some im → im'.specs = im.specs →
      Changed w w' c t' im' → Consistent w' ∧ w'.disk.wal = w.disk.wal := by
    intro c im t' im' him hspecs hchanged
    exact ⟨(hchanged.isOpen hw.isOpen him hspecs).consistent, hchanged.wal⟩
  have hsame : Consistent w' ∧ w'.disk.wal = w.disk.wal := by
    cases h with
    | nothing => exact ⟨hw, rfl⟩
    | raised him hrev hchanged => exact hkeep _ _ _ _ him hrev.specs hchanged
    | wrote him hadmits hrev hchanged =>
        exact hkeep _ _ _ _ him (hrev.specs.trans (WriteOp.specs_newIndexes _)) hchanged
    | compacted him hchanged => exact hkeep _ _ _ _ him (IndexManager.specs_rebuild _ _) hchanged
  exact ⟨hsame.1, hsame.2, hkeys⟩

/-- The parent has no children. -/
def Childless (c parentId : String) (w : Database) : Prop :=
  ∃ im, w.mem.get? c = some im ∧ im.getChildren parentId = []

theorem childless_iff {c : String} (hc : c ∈ w.mem.keys) : Childless c parentId w ↔
    (StorageEngine.getChildren c parentId).value env w = .ok [] := by
  obtain ⟨im, him⟩ := OrdDict.exists_get?_of_mem hc
  rw [value_getChildren him, Except.ok.injEq]
  constructor
  · rintro ⟨im', him', hnone⟩
    obtain rfl := Option.some.inj (him.symm.trans him')
    exact hnone
  · exact fun hnone => ⟨im, him, hnone⟩

/-- A call on another collection adds no child. -/
theorem StepEffect.childless_of_ne {sc : SchemaCollection} {request : SchemaCall} {c : String}
    (heffect : StepEffect env w (.call sc request) w') (hname : sc.name ≠ c)
    (h : Childless c parentId w) : Childless c parentId w' := by
  obtain ⟨im, him, hnone⟩ := h
  refine ⟨im, ?_, hnone⟩
  rw [← him]
  cases heffect with
  | nothing => rfl
  | raised _ _ hchanged => exact hchanged.get?_of_ne (Ne.symm hname)
  | wrote _ _ _ hchanged => exact hchanged.get?_of_ne (Ne.symm hname)

/-- Nor does a compaction. -/
theorem StepEffect.childless_of_compact {c c' : String}
    (heffect : StepEffect env w (.compact c') w') (h : Childless c parentId w) :
    Childless c parentId w' := by
  obtain ⟨im, him, hnone⟩ := h
  cases heffect with
  | nothing => exact ⟨im, him, hnone⟩
  | @compacted _ im₁ _ _ hchanged =>
      rcases eq_or_ne c c' with rfl | hne
      · exact ⟨im₁.rebuild (DocumentStore.rows (tables w.disk c)), hchanged.get?_self,
          getChildren_rebuild im₁ _⟩
      · exact ⟨im, (hchanged.get?_of_ne hne).trans him, hnone⟩

/-- **A parent without children gets one just by a call that stores a reference
to it.** -/
theorem Childless.step_iff (h : Childless C.name parentId w) (hw : Serving w)
    (hstep : ∀ sc request, step = .call sc request →
      sc.name ∈ w.mem.keys ∧ (sc.name = C.name → sc = C)) :
    Childless C.name parentId (step.exec env w) ↔ StoresNoReference C parentId w env step := by
  have heffect : StepEffect env w step (step.exec env w) :=
    stepEffect_exec env hw fun sc request hcall => (hstep sc request hcall).1
  cases step with
  | call sc request =>
      rcases Decidable.em (sc.name = C.name) with hname | hname
      · obtain rfl := (hstep sc request rfl).2 hname
        obtain ⟨im, him, hnone⟩ := h
        obtain ⟨im', him', hiff⟩ := sc.childlessAfter_perform env hw him hnone request
        constructor
        · rintro ⟨im'', him'', hnone''⟩ request' ⟨⟩ hok
          obtain rfl := Option.some.inj (him'.symm.trans him'')
          exact hiff.mp hnone'' () hok
        · exact fun hstores => ⟨im', him', hiff.mpr fun _ hok => hstores request rfl hok⟩
      · refine iff_of_true (heffect.childless_of_ne hname h) fun request' hcall => ?_
        obtain ⟨rfl, -⟩ := SchemaStep.call.inj hcall
        exact absurd rfl hname
  | compact c => exact iff_of_true (heffect.childless_of_compact h) nofun

end Steps

/-- A step keeps the state consistent and without logs. -/
theorem consistent_step {w : Database} {s : Env × SchemaStep} {names : List String}
    (hcalls : ∀ sc request, s.2 = .call sc request → sc.name ∈ names)
    (h : Consistent w ∧ w.disk.wal = OrdDict.empty ∧ w.mem.keys = names) :
    Consistent (s.2.exec s.1 w) ∧ (s.2.exec s.1 w).disk.wal = OrdDict.empty ∧
      (s.2.exec s.1 w).mem.keys = names := by
  obtain ⟨hw, hlogs, rfl⟩ := h
  have heffect : StepEffect s.1 w s.2 (s.2.exec s.1 w) := stepEffect_exec s.1 hw.serving hcalls
  obtain ⟨hw', hwal, hkeys⟩ := heffect.consistent hw
  exact ⟨hw', hwal.trans hlogs, hkeys⟩

/-- A parent without children keeps what it has in every state just if no step
stores a reference to it. -/
theorem Childless.run_iff {C : SchemaCollection} {env : Env} {w : Database} {parentId : String}
    {steps : List (Env × SchemaStep)} (h : Childless C.name parentId w) (henv : env.Alone)
    (hw : Consistent w) (hlogs : w.disk.wal = OrdDict.empty) (hC : C.name ∈ w.mem.keys)
    (hsteps : ∀ s ∈ steps, ∀ sc request, s.2 = .call sc request →
      sc.name ∈ w.mem.keys ∧ (sc.name = C.name → sc = C)) :
    Throughout (KeepsChildren env C.name parentId) w steps ↔
      EachStep (StoresNoReference C parentId) w steps := by
  have hkeeps : ∀ w', Consistent w' ∧ w'.disk.wal = OrdDict.empty ∧ w'.mem.keys = w.mem.keys →
      (KeepsChildren env C.name parentId w' ↔ Childless C.name parentId w') := by
    rintro w' ⟨hw', hlogs', hkeys⟩
    have hC' : C.name ∈ w'.mem.keys := hkeys ▸ hC
    exact (keepsChildren_iff henv hw' hlogs' hC').trans (childless_iff hC').symm
  have hstart := And.intro hw (And.intro hlogs (Eq.refl w.mem.keys))
  have hstep : ∀ s ∈ steps, ∀ w', Consistent w' ∧ w'.disk.wal = OrdDict.empty ∧
      w'.mem.keys = w.mem.keys → Consistent (s.2.exec s.1 w') ∧
        (s.2.exec s.1 w').disk.wal = OrdDict.empty ∧ (s.2.exec s.1 w').mem.keys = w.mem.keys :=
    fun s hs w' => consistent_step fun sc request hcall => (hsteps s hs sc request hcall).1
  refine Throughout.iff_eachStep ((hkeeps w hstart).mpr h) hstart hstep
    fun s hs w' hinv hnow => ?_
  rw [hkeeps _ (hstep s hs w' hinv)]
  refine Childless.step_iff ((hkeeps w' hinv).mp hnow) hinv.1.serving ?_
  rw [hinv.2.2]
  exact hsteps s hs

/-- **When rebuilding keeps the children of a parent.**  Take a child collection
that lists nobody under the parent, and any run of calls on schema collections
and of compactions, each in surroundings of its own and each succeeding or
raising.  In every state a compaction of the child collection, and an open that
misses one of its index files, keep the children of the parent just if there are
none; and they keep them in every state just if no call stores a reference to
the parent. -/
theorem children_kept_iff (C : SchemaCollection) (parentId : String) (w₀ : Database)
    (steps : List (Env × SchemaStep)) {env : Env} (henv : env.Alone) (hw : Consistent w₀)
    (hlogs : w₀.disk.wal = OrdDict.empty) (hC : C.name ∈ w₀.mem.keys)
    (h0 : (StorageEngine.getChildren C.name parentId).value env w₀ = .ok [])
    (hsteps : ∀ s ∈ steps, ∀ sc request, s.2 = .call sc request →
      sc.name ∈ w₀.mem.keys ∧ (sc.name = C.name → sc = C)) :
    Throughout (fun w => KeepsChildren env C.name parentId w ↔
        (StorageEngine.getChildren C.name parentId).value env w = .ok []) w₀ steps ∧
      (Throughout (KeepsChildren env C.name parentId) w₀ steps ↔
        EachStep (StoresNoReference C parentId) w₀ steps) := by
  constructor
  · have hrun : Throughout (fun w => Consistent w ∧ w.disk.wal = OrdDict.empty ∧
        w.mem.keys = w₀.mem.keys) w₀ steps := by
      apply Throughout.of_invariant ⟨hw, hlogs, rfl⟩
      exact fun s hs w => consistent_step fun sc request hcall => (hsteps s hs sc request hcall).1
    apply hrun.mono
    rintro w ⟨hw, hlogs, hkeys⟩
    exact keepsChildren_iff henv hw hlogs (hkeys ▸ hC)
  · exact ((childless_iff hC).mpr h0).run_iff henv hw hlogs hC hsteps

/-! ### An indexed shop -/

/-- A shop with a manifest, and orders indexed by their customer. -/
def indexedShopDb : Database where
  mem := OrdDict.ofList [("customers", IndexManager.new "customers" []),
    ("orders", IndexManager.new "orders" [⟨["customer_id"], false⟩])]
  disk :=
    { shopDb.disk with
      manifest := some (.payload (OrdDict.ofList
        [("customers", []), ("orders", [⟨["customer_id"], false⟩])])) }

theorem indexedShopDb_consistent : Consistent indexedShopDb := ⟨shopDb_serving, .inl rfl, by decide⟩

/-- The order of a customer is forgotten when the orders are compacted. -/
theorem children_lost :
    ¬Throughout (KeepsChildren onlyClient "orders" "c1") indexedShopDb
      [insertCustomer "c1", insertOrder "o1" "c1"] := by
  rintro ⟨-, -, hkeeps⟩
  obtain ⟨⟨ids, ids', hids, hids', hsame⟩, -⟩ := hkeeps _ .compact
  obtain rfl : ["o1"] = ids := Except.ok.inj hids
  obtain rfl : [] = ids' := Except.ok.inj hids'
  exact List.not_mem_nil ((hsame "o1").mpr List.mem_cons_self)

/-- A customer without orders keeps none, whatever the others order. -/
theorem children_kept_shop :
    Throughout (KeepsChildren onlyClient "orders" "c2") indexedShopDb
      [insertCustomer "c1", insertOrder "o1" "c1", (onlyClient, .compact "orders"),
        deleteCustomer "c1"] := by
  refine (children_kept_iff orders "c2" indexedShopDb _ onlyClient_alone indexedShopDb_consistent
    rfl (by decide) rfl ?_).2.mpr ?_
  · simp only [List.forall_mem_cons, List.not_mem_nil, false_imp_iff, implies_true, and_true]
    refine ⟨?_, ?_, nofun, ?_⟩ <;>
    · rintro sc request ⟨⟩
      exact ⟨by decide, fun hname => by first | rfl | exact absurd hname (by decide)⟩
  · refine ⟨fun request hcall => ?_, fun request hcall _ => ?_, nofun, fun request hcall => ?_,
      trivial⟩
    · exact absurd (congrArg SchemaCollection.name (SchemaStep.call.inj hcall).1) (by decide)
    · -- the order names another customer
      obtain ⟨-, rfl⟩ := SchemaStep.call.inj hcall
      rintro ⟨document, validated, ⟨⟩, ⟨⟩, fieldName, hfield, -, hparent⟩
      obtain rfl : fieldName = "customer_id" := List.mem_singleton.mp hfield
      exact absurd hparent (by decide)
    · exact absurd (congrArg SchemaCollection.name (SchemaStep.call.inj hcall).1) (by decide)

end JsonpySql
