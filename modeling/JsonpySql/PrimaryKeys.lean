/-
JsonpySql/PrimaryKeys.lean

Documents and the ids they are stored under.

An insert takes the id from the primary key of the document it stores.  An
update takes it from the caller, and stores whatever document it is given, so
the id and the primary key agree just as long as every caller makes them agree
(`keyed_iff`).
-/
import JsonpySql.ReferentialIntegrity

namespace JsonpySql

open StorageEngine

/-! ### Tables -/

/-- Every live document is stored under the string of its primary key. -/
def Keyed (pk : String) (t : Table) : Prop :=
  ∀ i r, t.liveRow i = some r → ∃ v, r.doc.get? pk = some v ∧ v.toStr = i

namespace Keyed

variable {pk docId : String} {t t' : Table} {r : Record}

theorem empty (h : ∀ i, t.liveRow i = none) : Keyed pk t := fun i r hr => by
  rw [h i] at hr
  cases hr

theorem congr (h : Keyed pk t) (ht : ∀ i, t'.liveRow i = t.liveRow i) : Keyed pk t' :=
  fun i r hr => h i r (ht i ▸ hr)

/-- Forgetting a document. -/
theorem erase (h : Keyed pk t) (docId : String) : Keyed pk (t.set docId none) := by
  intro i r hr
  rw [Table.liveRow_set] at hr
  split at hr
  · cases hr
  · exact h i r hr

/-- Writing a document. -/
theorem put_iff (h : Keyed pk t) : Keyed pk (t.set docId (some r)) ↔
    ∃ v, r.doc.get? pk = some v ∧ v.toStr = docId := by
  constructor
  · intro hkeyed
    apply hkeyed docId r
    rw [Table.liveRow_set, if_pos rfl]
  · intro hr i r' hr'
    rw [Table.liveRow_set] at hr'
    split at hr'
    · next hi =>
        obtain rfl := Option.some.inj hr'
        exact hi ▸ hr
    · exact h i r' hr'

end Keyed

/-! ### Calls -/

theorem Model.mem_keys_of_getPrimaryKeyField {model : Model} {pk : String}
    (h : model.getPrimaryKeyField = some pk) : pk ∈ model.modelFields.keys := by
  rw [Model.getPrimaryKeyField] at h
  split at h
  · next name names hfields =>
      obtain rfl := Option.some.inj h
      exact Model.mem_keys_of_mem_fieldsWith (hfields ▸ List.mem_cons_self)
  · split at h
    · obtain rfl := Option.some.inj h
      assumption
    · cases h

/-- What a call would store has the primary key, and for an update it is that of
the id the caller gives. -/
def SchemaCall.MatchesKey (self : SchemaCollection) (pk : String) : SchemaCall → Prop
  | .insert document => ∀ validated, self.model.dump document = .ok validated →
      (validated.get? pk).isSome
  | .update docId document => ∀ validated, self.model.dump document = .ok validated →
      ∃ v, validated.get? pk = some v ∧ v.toStr = docId
  | .delete _ => True

section Call

variable {self : SchemaCollection} {env : Env} {w : Database} {pk : String}

/-- The line of a checked document has its primary key. -/
theorem SchemaCollection.CheckedDocument.get?_line (hmodel : self.model.JsonNative)
    (hpk : self.pkField = some pk) {op : WriteOp} {validated : Doc}
    (h : self.CheckedDocument env w op validated) :
    op.line.doc.get? pk = validated.get? pk := by
  obtain ⟨d, hvalid⟩ := h.valid
  obtain ⟨hnative, hdeleted⟩ := hmodel.clean hvalid
  obtain ⟨hdoc, -⟩ := slot_ofDoc hnative hdeleted op.docId
  have hne := (hmodel.field_ne (Model.mem_keys_of_getPrimaryKeyField hpk)).1
  rw [h.line, hdoc, withId, OrdDict.get?_set_of_ne _ _ hne]

/-- The id of a document that has its primary key. -/
theorem SchemaCollection.value_extractOrGenerateId (hpk : self.pkField = some pk) {document : Doc}
    {v : PyVal} (hv : document.get? pk = some v) :
    (self.extractOrGenerateId document).value env w = .ok v.toStr := by
  rw [extractOrGenerateId, Prog.value, Prog.run_bind_read (Prog.run_env env w), hpk,
    Option.bind_some, hv]
  rfl

/-- **An admitted write** keeps the documents keyed just if it matches. -/
theorem Keyed.admits_iff (hmodel : self.model.JsonNative) (hpk : self.pkField = some pk)
    (h : Keyed pk (tables w.disk self.name)) {request : SchemaCall} {op : WriteOp}
    (hadmits : self.Admits env w request op) :
    Keyed pk ((tables w.disk self.name).set op.docId op.line.slot) ↔
      request.MatchesKey self pk := by
  obtain ⟨docId, rfl, rfl⟩ | ⟨validated, hchecked⟩ := hadmits.delete_or_document
  · exact iff_of_true (h.erase docId) trivial
  · rw [(hchecked.slot_line hmodel).1, h.put_iff, hchecked.get?_line hmodel hpk]
    cases hadmits with
    | @insert document _ docId hvalid hid =>
        obtain rfl := Option.some.inj hchecked.document
        constructor
        · rintro ⟨v, hv, -⟩ validated' hvalid'
          obtain rfl := Except.ok.inj (hvalid.symm.trans hvalid')
          exact Option.isSome_iff_exists.mpr ⟨v, hv⟩
        · intro hpresent
          -- the id was taken from the key
          obtain ⟨v, hv⟩ := Option.isSome_iff_exists.mp (hpresent _ hvalid)
          exact ⟨v, hv, Except.ok.inj
            ((SchemaCollection.value_extractOrGenerateId hpk hv).symm.trans hid)⟩
    | @update docId document _ hvalid =>
        obtain rfl := Option.some.inj hchecked.document
        constructor
        · intro hkey validated' hvalid'
          obtain rfl := Except.ok.inj (hvalid.symm.trans hvalid')
          exact hkey
        · exact fun hmatches => hmatches _ hvalid
    | delete docId => cases hchecked.document

/-- **A call** keeps the documents keyed just if it raises, or matches. -/
theorem Keyed.perform_iff (hmodel : self.model.JsonNative) (hpk : self.pkField = some pk)
    (hw : Serving w) {im : IndexManager} (him : w.mem.get? self.name = some im)
    (h : Keyed pk (tables w.disk self.name)) (request : SchemaCall) :
    Keyed pk (tables ((request.perform self).exec env w).disk self.name) ↔
      ((request.perform self).value env w = .ok () → request.MatchesKey self pk) := by
  obtain ⟨e, im', herror, -, hchanged⟩ | ⟨op, im', hadmits, ⟨_, hok⟩, -, hchanged⟩ :=
    self.perform_settled env hw him request
  · have hsame : tables ((request.perform self).exec env w).disk self.name = _ :=
      hchanged.table_self
    rw [hsame]
    refine iff_of_true h fun hok => ?_
    cases herror.symm.trans hok
  · have hnew : tables ((request.perform self).exec env w).disk self.name = _ :=
      hchanged.table_self
    rw [hnew, h.admits_iff hmodel hpk hadmits]
    exact ⟨fun hmatches _ => hmatches, fun hmatches => hmatches hok⟩

end Call

/-! ### Runs -/

/-- A call on `C` that returns matches the key. -/
def StepMatchesKey (C : SchemaCollection) (pk : String) (w : Database) (env : Env)
    (step : SchemaStep) : Prop :=
  ∀ request, step = .call C request → (request.perform C).value env w = .ok () →
    request.MatchesKey C pk

section Steps

variable {C : SchemaCollection} {env : Env} {w w' : Database} {step : SchemaStep} {pk : String}

/-- A step that is no call on a collection keeps its documents. -/
theorem StepEffect.liveRow_of_no_call (heffect : StepEffect env w step w') {c : String}
    (hother : ∀ sc request, step = .call sc request → sc.name ≠ c) (i : String) :
    (tables w'.disk c).liveRow i = (tables w.disk c).liveRow i := by
  cases heffect with
  | nothing => rfl
  | raised _ _ hchanged =>
      rw [liveRow_of_changed hchanged, if_neg (Ne.symm (hother _ _ rfl))]
  | wrote _ _ _ hchanged =>
      rw [liveRow_of_changed hchanged, if_neg (Ne.symm (hother _ _ rfl))]
  | compacted _ hchanged =>
      rw [liveRow_of_changed hchanged]
      split
      · next hc => rw [hc, Table.liveRow_live]
      · rfl

/-- **A step** keeps the documents keyed just if it matches the key. -/
theorem Keyed.step_iff (hmodel : C.model.JsonNative) (hpk : C.pkField = some pk) (hw : Serving w)
    (h : Keyed pk (tables w.disk C.name))
    (hstep : ∀ sc request, step = .call sc request →
      sc.name ∈ w.mem.keys ∧ (sc.name = C.name → sc = C)) :
    Keyed pk (tables (step.exec env w).disk C.name) ↔ StepMatchesKey C pk w env step := by
  have heffect : StepEffect env w step (step.exec env w) :=
    stepEffect_exec env hw fun sc request hcall => (hstep sc request hcall).1
  have hkept : (∀ sc request, step = .call sc request → sc.name ≠ C.name) →
      (Keyed pk (tables (step.exec env w).disk C.name) ↔ StepMatchesKey C pk w env step) := by
    intro hother
    refine iff_of_true (h.congr (heffect.liveRow_of_no_call hother)) fun request hcall => ?_
    exact absurd rfl (hother C request hcall)
  cases step with
  | call sc request =>
      rcases Decidable.em (sc.name = C.name) with hname | hname
      · obtain ⟨hreg, heq⟩ := hstep sc request rfl
        obtain rfl := heq hname
        obtain ⟨im, him⟩ := OrdDict.exists_get?_of_mem hreg
        refine (h.perform_iff hmodel hpk hw him request).trans ?_
        constructor
        · rintro hmatches request' ⟨⟩
          exact hmatches
        · exact fun hmatches => hmatches request rfl
      · refine hkept fun sc' request' hcall => ?_
        obtain ⟨rfl, -⟩ := SchemaStep.call.inj hcall
        exact hname
  | compact c => exact hkept nofun

end Steps

/-- A scan yields documents that are stored under the strings of their primary
keys, and no two with the same key. -/
def ScanKeyed (self : SchemaCollection) (env : Env) (pk : String) (w : Database) : Prop :=
  ∃ rows, self.scan.value env w = .ok rows ∧
    (∀ r ∈ rows, ∃ v, r.doc.get? pk = some v ∧ r.docId = some v.toStr) ∧
    (rows.map fun r => r.doc.get? pk).Nodup

/-- The invariant as a scan shows it. -/
theorem scanKeyed_iff {self : SchemaCollection} {env : Env} {w : Database} {pk : String}
    (henv : env.Alone) (hw : Serving w) (hc : self.name ∈ w.mem.keys) :
    ScanKeyed self env pk w ↔ Keyed pk (tables w.disk self.name) := by
  have hscan : self.scan.value env w = _ := value_scan henv hw hc
  have hwf := tables_wf w.disk self.name
  constructor
  · rintro ⟨rows, hrows, hkeyed, -⟩ i r hr
    obtain rfl := Except.ok.inj (hscan.symm.trans hrows)
    obtain ⟨hmem, hid⟩ := (Table.liveRow_eq_some_iff_rows hwf).mp hr
    obtain ⟨v, hv, hid'⟩ := hkeyed r hmem
    exact ⟨v, hv, Option.some.inj (hid'.symm.trans hid)⟩
  · intro h
    have hkeyed : ∀ r ∈ DocumentStore.rows (tables w.disk self.name),
        ∃ v, r.doc.get? pk = some v ∧ r.docId = some v.toStr := by
      intro r hr
      obtain ⟨i, hi⟩ := Table.mem_rows.mp hr
      obtain ⟨-, hid⟩ := (Table.liveRow_eq_some_iff_rows hwf).mp hi
      obtain ⟨v, hv, rfl⟩ := h i r hi
      exact ⟨v, hv, hid⟩
    refine ⟨_, hscan, hkeyed, ?_⟩
    -- documents with the same key would be stored under the same id
    have hids := Table.nodup_docId_rows hwf
    have heq : (DocumentStore.rows (tables w.disk self.name)).map Record.docId =
        ((DocumentStore.rows (tables w.disk self.name)).map fun r => r.doc.get? pk).map
          (Option.map PyVal.toStr) := by
      rw [List.map_map]
      refine List.map_congr_left fun r hr => ?_
      obtain ⟨v, hv, hid⟩ := hkeyed r hr
      rw [hid, Function.comp_apply, hv, Option.map_some]
    rw [heq] at hids
    exact hids.of_map _

/-- **When documents are stored under their keys.**  Take a collection whose model
has a primary key, without documents at first, and any run of calls on it and on
other collections and of compactions, each in surroundings of its own and each
succeeding or raising.  In every state the documents are stored under the strings
of their primary keys, and no two have the same key, just if each insert and
update on the collection that returns stores a document that has the key, and an
update one whose key is the id it was given. -/
theorem documents_keyed_iff (C : SchemaCollection) (pk : String) (w₀ : Database)
    (steps : List (Env × SchemaStep)) {env : Env} (henv : env.Alone) (hmodel : C.model.JsonNative)
    (hpk : C.pkField = some pk) (hw : Serving w₀) (hC : C.name ∈ w₀.mem.keys)
    (hempty : ∀ docId, (tables w₀.disk C.name).get docId = none)
    (hsteps : ∀ s ∈ steps, ∀ sc request, s.2 = .call sc request →
      sc.name ∈ w₀.mem.keys ∧ (sc.name = C.name → sc = C)) :
    Throughout (ScanKeyed C env pk) w₀ steps ↔ EachStep (StepMatchesKey C pk) w₀ steps := by
  have hiff : ∀ w, Serving w ∧ w.mem.keys = w₀.mem.keys →
      (ScanKeyed C env pk w ↔ Keyed pk (tables w.disk C.name)) := by
    rintro w ⟨hw, hkeys⟩
    exact scanKeyed_iff henv hw (hkeys ▸ hC)
  have hstart : Serving w₀ ∧ w₀.mem.keys = w₀.mem.keys := ⟨hw, rfl⟩
  have hkeep : ∀ s ∈ steps, ∀ w, Serving w ∧ w.mem.keys = w₀.mem.keys →
      Serving (s.2.exec s.1 w) ∧ (s.2.exec s.1 w).mem.keys = w₀.mem.keys := by
    intro s hs w hw
    exact (serving_step hw fun sc request hcall => (hsteps s hs sc request hcall).1).2
  refine Throughout.iff_eachStep ((hiff w₀ hstart).mpr (Keyed.empty fun i => ?_)) hstart hkeep
    fun s hs w hinv hnow => ?_
  · exact Option.map_eq_none_iff.mp (hempty i)
  · rw [hiff _ (hkeep s hs w hinv)]
    refine ((hiff w hinv).mp hnow).step_iff hmodel hpk hinv.1 ?_
    rw [hinv.2]
    exact hsteps s hs

/-! ### Users -/

/-- Users by their `id`. -/
def usersById : SchemaCollection :=
  ⟨"users", textModel "User" (OrdDict.ofList [("id", ⟨[.field ⟨true, false, false⟩]⟩),
    ("email", ⟨[.field ⟨false, true, false⟩]⟩)]), OrdDict.empty⟩

/-- An update gives the second user the key of the first. -/
theorem documents_unkeyed :
    let user (i : String) : Doc := OrdDict.ofList [("id", .str i), ("email", .str "a")]
    usersById.pkField = some "id" ∧ ¬Throughout (ScanKeyed usersById onlyClient "id") usersDb
      [(onlyClient, .call usersById (.insert (user "1"))),
        (onlyClient, .call usersById (.insert (user "2"))),
        (onlyClient, .call usersById (.update "2" (user "1")))] := by
  intro user
  refine ⟨rfl, ?_⟩
  rintro ⟨-, -, -, rows, hrows, -, hnodup⟩
  have hkeys := congrArg (fun result : Except PyErr (List Record) =>
    result.toOption.map fun rows => rows.map fun r => r.doc.get? "id") hrows
  have htwice : some [some (.str "1"), some (.str "1")] =
      some (rows.map fun r => r.doc.get? "id") := Eq.trans (by decide +kernel) hkeys
  rw [← Option.some.inj htwice] at hnodup
  simp at hnodup

/-- A user is created, changed under its own key, and deleted. -/
theorem documents_keyed_users :
    let user (email : String) : Doc := OrdDict.ofList [("id", .str "1"), ("email", .str email)]
    Throughout (ScanKeyed usersById onlyClient "id") usersDb
      [(onlyClient, .call usersById (.insert (user "a"))),
        (onlyClient, .call usersById (.update "1" (user "b"))),
        (onlyClient, .compact "users"),
        (onlyClient, .call usersById (.delete "1"))] := by
  intro user
  refine (documents_keyed_iff usersById "id" usersDb _ onlyClient_alone
    (jsonNative_textModel "User" (by decide)) rfl usersDb_serving (by decide) (fun _ => rfl)
    ?_).mpr ⟨fun request hcall _ => ?_, fun request hcall _ => ?_, nofun, fun request hcall _ => ?_,
      trivial⟩
  · simp only [List.forall_mem_cons, List.not_mem_nil, false_imp_iff, implies_true, and_true]
    refine ⟨?_, ?_, nofun, ?_⟩ <;>
    · rintro sc request ⟨⟩
      exact ⟨by decide, fun _ => rfl⟩
  · obtain ⟨-, rfl⟩ := SchemaStep.call.inj hcall
    intro validated hvalid
    obtain rfl := Except.ok.inj hvalid
    rfl
  · obtain ⟨-, rfl⟩ := SchemaStep.call.inj hcall
    intro validated hvalid
    obtain rfl := Except.ok.inj hvalid
    exact ⟨.str "1", rfl, rfl⟩
  · obtain ⟨-, rfl⟩ := SchemaStep.call.inj hcall
    trivial

end JsonpySql
