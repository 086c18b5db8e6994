/-
JsonpySql/UniqueFields.lean

Unique fields stay unique.

Before a write a unique value is looked up, in an index where the field has one
and among the rows where it has none.  A lookup may find too much, since an
index may list stale entries, but never too little: the indexes are complete in
every state of a run, whatever was inserted over, updated, rebuilt or raised.
So a value that is found under no id, or under the document's own id only, is
no other live document's value (`UniqueIn.put`).
-/
import JsonpySql.SchemaRuns

namespace JsonpySql

open StorageEngine

/-! ### Lookups find every live document -/

/-- With complete indexes a lookup finds every live document that has the
value, indexed or not. -/
theorem IndexManager.Complete.mem_lookupIn {im : IndexManager} {t : Table} (h : im.Complete t)
    (ht : t.WF) {i fieldName s : String} {r : Record} (hr : t.liveRow i = some r)
    (hs : Doc.get r.doc fieldName = .str s) : i ∈ lookupIn im t fieldName (.str s) := by
  rcases hfind : im.indexes.find? fun e => e.1.fields = [fieldName] with _ | e
  · -- no index: the row itself is scanned
    have hnone : im.findIndexFor fieldName = none := by rw [IndexManager.findIndexFor, hfind]; rfl
    obtain ⟨hmem, hid⟩ := (Table.liveRow_eq_some_iff_rows ht).mp hr
    rw [lookupIn, IndexManager.hasIndexFor, hnone]
    refine List.mem_filterMap.mpr ⟨r, List.mem_filter.mpr ⟨hmem, ?_⟩, hid⟩
    rw [hs, PyVal.eq_str]
    simp
  · -- the first index on the field lists the id under its key
    have hsome : im.findIndexFor fieldName = some e.2 := by
      rw [IndexManager.findIndexFor, hfind]
      rfl
    have hfields : e.1.fields = [fieldName] := by simpa using List.find?_some hfind
    rw [lookupIn, IndexManager.hasIndexFor, IndexManager.lookup, hsome]
    apply h e (List.mem_of_find?_eq_some hfind)
    rw [IndexManager.keyOf, hr, Option.map_some, IndexSpec.key_single hfields, hs]
    rfl

/-! ### The invariant -/

/-- The live values of a field are strings or `None`, and no string is the
value of two documents. -/
structure UniqueIn (fieldName : String) (t : Table) : Prop where
  strings : ∀ i r, t.liveRow i = some r →
    Doc.get r.doc fieldName = .none ∨ ∃ s, Doc.get r.doc fieldName = .str s
  unique : ∀ i j r r' s, t.liveRow i = some r → t.liveRow j = some r' →
    Doc.get r.doc fieldName = .str s → Doc.get r'.doc fieldName = .str s → i = j

namespace UniqueIn

variable {fieldName : String} {t t' : Table}

theorem empty (h : ∀ i, t.liveRow i = none) : UniqueIn fieldName t where
  strings i r hr := by simp [h i] at hr
  unique i j r r' s hr := by simp [h i] at hr

theorem congr (h : UniqueIn fieldName t) (ht : ∀ i, t'.liveRow i = t.liveRow i) :
    UniqueIn fieldName t' where
  strings i r hr := h.strings i r (ht i ▸ hr)
  unique i j r r' s hr hr' := h.unique i j r r' s (ht i ▸ hr) (ht j ▸ hr')

/-- Forgetting a document. -/
theorem erase (h : UniqueIn fieldName t) (docId : String) :
    UniqueIn fieldName (t.set docId none) := by
  have hold : ∀ i r, Table.liveRow (t.set docId none) i = some r → t.liveRow i = some r := by
    intro i r hr
    rw [Table.liveRow_set] at hr
    split at hr
    · cases hr
    · exact hr
  exact ⟨fun i r hr => h.strings i r (hold i r hr),
    fun i j r r' s hr hr' => h.unique i j r r' s (hold i r hr) (hold j r' hr')⟩

/-- Writing a document whose value no other live document has. -/
theorem put (h : UniqueIn fieldName t) {docId : String} {new : Record}
    (hstring : Doc.get new.doc fieldName = .none ∨ ∃ s, Doc.get new.doc fieldName = .str s)
    (hfree : ∀ i r s, t.liveRow i = some r → Doc.get r.doc fieldName = .str s →
      Doc.get new.doc fieldName = .str s → i = docId) :
    UniqueIn fieldName (t.set docId (some new)) := by
  refine ⟨fun i r hr => ?_, fun i j r r' s hr hr' hs hs' => ?_⟩
  · rw [Table.liveRow_set] at hr
    split at hr
    · cases hr
      exact hstring
    · exact h.strings i r hr
  · rw [Table.liveRow_set] at hr hr'
    -- the new document is one of the two, both or neither
    split at hr <;> split at hr'
    · next hi hj => rw [hi, hj]
    · next hi hj =>
        cases hr
        exact absurd (hfree j r' s hr' hs' hs) hj
    · next hi hj =>
        cases hr'
        exact absurd (hfree i r s hr hs hs') hi
    · exact h.unique i j r r' s hr hr' hs hs'

end UniqueIn

/-! ### One step -/

section Step

variable {self : SchemaCollection} {env : Env} {w w' : Database} {im : IndexManager}
  {fieldName : String}

/-- **An admitted write keeps a unique field unique.** -/
theorem UniqueIn.admits (hmodel : self.model.JsonNative) (hw : Serving w)
    (him : w.mem.get? self.name = some im) (hcomplete : im.Complete (tables w.disk self.name))
    (hfield : fieldName ∈ self.model.getUniqueFields)
    (hstrings : ∀ d v, self.model.dump d = .ok v →
      v.get fieldName = .none ∨ ∃ s, v.get fieldName = .str s)
    (h : UniqueIn fieldName (tables w.disk self.name)) {request : SchemaCall} {op : WriteOp}
    (hadmits : self.Admits env w request op) :
    UniqueIn fieldName ((tables w.disk self.name).set op.docId op.line.slot) := by
  obtain ⟨docId, -, rfl⟩ | ⟨validated, hchecked⟩ := hadmits.delete_or_document
  · exact h.erase docId
  · obtain ⟨d, hvalid⟩ := hchecked.valid
    obtain ⟨conflict, hcheck, hconflict⟩ := hchecked.unique
    obtain ⟨hslot, hget⟩ := hchecked.slot_line hmodel
    rw [hslot]
    have hnew := hget fieldName (Model.mem_keys_of_mem_fieldsWith hfield)
    apply h.put
    · rw [hnew]
      exact hstrings d validated hvalid
    · -- a live document with the new value is among those the check has looked up
      intro i r s hr hs hs'
      rw [hnew] at hs'
      obtain ⟨existing, hlookup, hnone⟩ :=
        UniqueConstraintChecker.lookup_of_checkFields hcheck hfield (by simp [hs'])
      apply hconflict existing hnone
      rw [lookup_of_ok hw him hlookup, hs']
      exact hcomplete.mem_lookupIn (tables_wf w.disk _) hr hs

/-- What holds in every state: the indexes miss no live document, and a field
is unique. -/
def UniqueInv (fieldName : String) (im : IndexManager) (t : Table) : Prop :=
  im.Complete t ∧ UniqueIn fieldName t

/-- **Every step keeps a unique field unique.** -/
theorem StepEffect.uniqueInv {step : SchemaStep} (heffect : StepEffect env w step w')
    (hself : ∀ sc request, step = .call sc request → sc = self) (hmodel : self.model.JsonNative)
    (hw : Serving w) (hfield : fieldName ∈ self.model.getUniqueFields)
    (hstrings : ∀ d v, self.model.dump d = .ok v →
      v.get fieldName = .none ∨ ∃ s, v.get fieldName = .str s) {specs : List IndexSpec}
    (h : Indexed (UniqueInv fieldName) self.name specs w) :
    Indexed (UniqueInv fieldName) self.name specs w' := by
  cases heffect with
  | nothing => exact h
  | raised him hrev hchanged =>
      obtain rfl := hself _ _ rfl
      apply h.changed him hchanged hrev.specs
      rintro - ⟨hcomplete, hunique⟩
      exact ⟨hrev.complete hcomplete, hunique⟩
  | @wrote _ request op im im' _ him hadmits hrev hchanged =>
      obtain rfl := hself _ _ rfl
      apply h.changed him hchanged (hrev.specs.trans op.specs_newIndexes)
      rintro - ⟨hcomplete, hunique⟩
      have hnew : ((EngineOp.write op).newIndexes _ im).Complete ((EngineOp.write op).newTable _) :=
        complete_op (hadmits.clean hmodel) (tables_wf w.disk _) hcomplete
      exact ⟨hrev.complete hnew, hunique.admits hmodel hw him hcomplete hfield hstrings hadmits⟩
  | @compacted c im _ him hchanged =>
      apply h.changed him hchanged (im.specs_rebuild _)
      rintro rfl ⟨hcomplete, hunique⟩
      have hnew : ((EngineOp.compact self.name).newIndexes _ im).Complete
          ((EngineOp.compact self.name).newTable _) :=
        complete_op trivial (tables_wf w.disk _) hcomplete
      exact ⟨hnew, hunique.congr (Table.liveRow_live _)⟩

end Step

/-! ### Runs -/

/-- No two documents that a scan yields have equal values in a field. -/
def ScanUnique (self : SchemaCollection) (env : Env) (fieldName : String) (w : Database) : Prop :=
  ∃ rows, self.scan.value env w = .ok rows ∧ ∀ r ∈ rows, ∀ r' ∈ rows,
    Doc.get r.doc fieldName ≠ .none →
      (Doc.get r.doc fieldName).eq (Doc.get r'.doc fieldName) = true → r.docId = r'.docId

/-- The invariant as a scan shows it. -/
theorem UniqueIn.scanUnique {self : SchemaCollection} {env : Env} {w : Database}
    {fieldName : String} (henv : env.Alone) (hw : Serving w) (hc : self.name ∈ w.mem.keys)
    (h : UniqueIn fieldName (tables w.disk self.name)) : ScanUnique self env fieldName w := by
  refine ⟨_, value_scan henv hw hc, fun r hr r' hr' hne heq => ?_⟩
  obtain ⟨i, hi⟩ := Table.mem_rows.mp hr
  obtain ⟨j, hj⟩ := Table.mem_rows.mp hr'
  obtain ⟨s, hs⟩ := (h.strings i r hi).resolve_left hne
  -- what equals a string is the same string
  have hs' : Doc.get r'.doc fieldName = .str s := by
    obtain hnone | ⟨s', hs'⟩ := h.strings j r' hj
    · rw [hs, hnone] at heq
      cases heq
    · rw [hs, hs', PyVal.eq_str, decide_eq_true_iff] at heq
      rw [hs', heq]
  obtain rfl := h.unique i j r r' s hi hj hs hs'
  rw [Option.some.inj (hi.symm.trans hj)]

/-- **Unique fields stay unique.**  Take a collection that is registered and has
no documents, whatever its indexes, and any sequence of inserts, updates and
deletes on it and of compactions, each in surroundings of its own and each
succeeding or raising.  In every state no two live documents have equal values
in a unique field whose validated values are strings or `None`. -/
theorem unique_fields_unique (self : SchemaCollection) (w₀ : Database)
    (steps : List (Env × SchemaStep)) (fieldName : String) {env : Env} (henv : env.Alone)
    (hmodel : self.model.JsonNative) (hw : Serving w₀) (hreg : self.name ∈ w₀.mem.keys)
    (hempty : ∀ docId, (tables w₀.disk self.name).get docId = none)
    (hself : ∀ s ∈ steps, ∀ sc request, s.2 = .call sc request → sc = self)
    (hfield : fieldName ∈ self.model.getUniqueFields)
    (hstrings : ∀ d v, self.model.dump d = .ok v →
      v.get fieldName = .none ∨ ∃ s, v.get fieldName = .str s) :
    Throughout (ScanUnique self env fieldName) w₀ steps := by
  obtain ⟨im, him⟩ := OrdDict.exists_get?_of_mem hreg
  have hdead : ∀ i, (tables w₀.disk self.name).liveRow i = none := fun i =>
    Option.map_eq_none_iff.mp (hempty i)
  have hstart : Indexed (UniqueInv fieldName) self.name im.specs w₀ := by
    refine ⟨im, him, rfl, fun e _ i key hkey => ?_, UniqueIn.empty hdead⟩
    rw [IndexManager.keyOf, hdead] at hkey
    cases hkey
  have hrun : Throughout (fun w => Serving w ∧ Indexed (UniqueInv fieldName) self.name im.specs w)
      w₀ steps := by
    apply Throughout.of_invariant ⟨hw, hstart⟩
    rintro s hs w ⟨hw, hinv⟩
    have heffect : StepEffect s.1 w s.2 (s.2.exec s.1 w) := by
      apply stepEffect_exec s.1 hw
      intro sc request hcall
      obtain rfl := hself s hs sc request hcall
      exact hinv.mem_keys
    exact ⟨(heffect.serving hw).1,
      heffect.uniqueInv (hself s hs) hmodel hw hfield hstrings hinv⟩
  apply hrun.mono
  rintro w ⟨hw, hinv⟩
  have hc := hinv.mem_keys
  obtain ⟨-, -, -, -, hunique⟩ := hinv
  exact hunique.scanUnique henv hw hc

/-- A refused duplicate, a live id inserted again, a call that does not get its
lock, an update and a rebuild; the field is not indexed. -/
theorem unique_fields_unique_users :
    let user : Model := textModel "User" (OrdDict.ofList
      [("id", ⟨[.field ⟨true, false, false⟩]⟩), ("phone", ⟨[.field ⟨false, false, true⟩]⟩)])
    let users : SchemaCollection := ⟨"users", user, OrdDict.empty⟩
    let doc (i phone : String) : Doc := OrdDict.ofList [("id", .str i), ("phone", .str phone)]
    let busy : Env := { onlyClient with held := fun _ => some .shared }
    Throughout (ScanUnique users onlyClient "phone") usersDb
      [(onlyClient, .call users (.insert (doc "1" "a"))),
        (onlyClient, .call users (.insert (doc "2" "a"))),
        (onlyClient, .call users (.insert (doc "1" "b"))),
        (busy, .call users (.insert (doc "2" "c"))),
        (onlyClient, .call users (.insert (doc "2" "a"))),
        (onlyClient, .compact "users"),
        (onlyClient, .call users (.update "2" (doc "2" "b"))),
        (onlyClient, .call users (.delete "1"))] := by
  intro user users doc busy
  apply unique_fields_unique users usersDb _ "phone" onlyClient_alone
  · exact jsonNative_textModel "User" (by decide)
  · exact usersDb_serving
  · decide
  · exact fun docId => rfl
  · simp
  · decide
  · exact fun d v hv => get_dump_textModel hv "phone"

end JsonpySql
