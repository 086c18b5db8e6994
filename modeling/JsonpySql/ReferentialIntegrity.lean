/-
JsonpySql/ReferentialIntegrity.lean

References between a parent and a child collection.

A child's foreign key is checked whenever the child is written, against the
parents that are live then (`ReferentialIntegrityChecker.checkChildInsert`), and
a parent stays live until it is deleted.  Nothing is checked on a delete: the
loop of `SchemaCollection.delete` over the checkers is empty, and
`checkParentDelete` has no caller.  So references stay live exactly as long as
no parent with children is deleted (`references_live_iff`).

A reference names its parent by id: the check looks up `str` of the foreign key
among the ids of the parent collection.
-/
import JsonpySql.SchemaRuns

namespace JsonpySql

open StorageEngine

/-! ### References -/

/-- A document with this id is live. -/
def Live (w : Database) (c docId : String) : Prop := ((tables w.disk c).liveRow docId).isSome

instance (w : Database) (c docId : String) : Decidable (Live w c docId) :=
  inferInstanceAs (Decidable (_ = true))

/-- The field of the live document `child` of `C` refers to document `parent` of
`P`. -/
def Refers (P C : SchemaCollection) (w : Database) (child fieldName : String)
    (fk : ForeignKeyMeta) (parent : String) : Prop :=
  C.model.getForeignKeys.get? fieldName = some fk ∧ fk.targetModel.collectionName = P.name ∧
    ∃ r, (tables w.disk C.name).liveRow child = some r ∧ Doc.get r.doc fieldName ≠ .none ∧
      (Doc.get r.doc fieldName).toStr = parent

/-- Every reference from `C` to `P` refers to a live document. -/
def ReferencesLive (P C : SchemaCollection) (w : Database) : Prop :=
  ∀ child fieldName fk parent, Refers P C w child fieldName fk parent → Live w P.name parent

/-- `child` refers to `parent` and is another document. -/
def IsChild (P C : SchemaCollection) (w : Database) (child fieldName : String)
    (fk : ForeignKeyMeta) (parent : String) : Prop :=
  Refers P C w child fieldName fk parent ∧ (C.name, child) ≠ (P.name, parent)

/-- What the `on_delete` rule of a reference asks of the deletion of its parent,
from `w` to `w'`. -/
def OnDelete.Enforced (rule : OnDelete) (result : Except PyErr Unit) (w w' : Database)
    (C : SchemaCollection) (child fieldName : String) : Prop :=
  match rule with
  | .restrict => (∃ msg, result = .error (.referentialIntegrityError msg)) ∧ w' = w
  | .cascade => ¬ Live w' C.name child
  | .setNull => ∃ r, (tables w'.disk C.name).liveRow child = some r ∧
      Doc.get r.doc fieldName = .none

/-- A step that deletes a parent does with every child what its rule says. -/
def EnforcesOnDelete (P C : SchemaCollection) (w : Database) (env : Env) (step : SchemaStep) :
    Prop :=
  ∀ parent, step = .call P (.delete parent) →
    ∀ child fieldName fk, IsChild P C w child fieldName fk parent →
      fk.onDelete.Enforced ((P.delete parent).value env w) w ((P.delete parent).exec env w)
        C child fieldName

/-- The step deletes no parent that has children. -/
def SparesParents (P C : SchemaCollection) (w : Database) (_ : Env) (step : SchemaStep) : Prop :=
  ∀ parent, step = .call P (.delete parent) →
    ∀ child fieldName fk, ¬ IsChild P C w child fieldName fk parent

/-- What the results below assume of the two collections: the child is wired by
the manager, validation yields native documents, and no other collection has the
name of one of them. -/
structure Linked (P C : SchemaCollection) : Prop where
  wired : C.fkCheckers = CollectionManager.buildFkCheckers C.name C.model
  parentModel : P.model.JsonNative
  childModel : C.model.JsonNative
  name : P.name = C.name → P = C

/-- Both collections are registered, with their files. -/
structure Ready (P C : SchemaCollection) (w : Database) : Prop where
  serving : Serving w
  parent : P.name ∈ w.mem.keys
  child : C.name ∈ w.mem.keys

namespace Linked

variable {P C self : SchemaCollection}

theorem model (h : Linked P C) (hself : self = P ∨ self = C) : self.model.JsonNative := by
  obtain rfl | rfl := hself
  · exact h.parentModel
  · exact h.childModel

/-- A name names one collection. -/
theorem eq_parent (h : Linked P C) (hself : self = P ∨ self = C) (hname : P.name = self.name) :
    self = P := by
  obtain rfl | rfl := hself
  · rfl
  · exact (h.name hname).symm

theorem eq_child (h : Linked P C) (hself : self = P ∨ self = C) (hname : C.name = self.name) :
    self = C := by
  obtain rfl | rfl := hself
  · exact h.name hname.symm
  · rfl

end Linked

/-! ### One step -/

section Step

variable {P C self : SchemaCollection} {env : Env} {w w' : Database} {im' : IndexManager}

/-- The live lines after one table has changed. -/
theorem liveRow_of_changed {c : String} {t' : Table} (h : Changed w w' c t' im')
    (c' i : String) :
    (tables w'.disk c').liveRow i =
      if c' = c then t'.liveRow i else (tables w.disk c').liveRow i := by
  rw [h.tables]
  split
  · next hc => rw [hc, Function.update_self]
  · next hc => rw [Function.update_of_ne hc]

/-- The live lines after a write. -/
theorem liveRow_of_write {c docId : String} {v : Option Record}
    (h : Changed w w' c ((tables w.disk c).set docId v) im') (c' i : String) :
    (tables w'.disk c').liveRow i =
      if (c', i) = (c, docId) then v else (tables w.disk c').liveRow i := by
  rw [liveRow_of_changed h, Table.liveRow_set]
  rcases eq_or_ne c' c with rfl | hc
  · rcases eq_or_ne i docId with rfl | hi
    · simp
    · simp [hi]
  · simp [hc]

theorem ReferencesLive.congr (h : ReferencesLive P C w)
    (hrows : ∀ c i, (tables w'.disk c).liveRow i = (tables w.disk c).liveRow i) :
    ReferencesLive P C w' := by
  rintro child fieldName fk parent ⟨hfk, htarget, r, hr, href⟩
  rw [Live, hrows]
  exact h child fieldName fk parent ⟨hfk, htarget, r, hrows _ _ ▸ hr, href⟩

/-- A change of a table that keeps its live lines. -/
theorem ReferencesLive.changed (h : ReferencesLive P C w) {c : String} {t' : Table}
    (hchanged : Changed w w' c t' im') (hrows : ∀ i, t'.liveRow i = (tables w.disk c).liveRow i) :
    ReferencesLive P C w' := by
  apply h.congr
  intro c' i
  rw [liveRow_of_changed hchanged]
  split
  · next hc => rw [hc, hrows]
  · rfl

/-- The references of a checked document are live. -/
theorem live_of_checkChild (hlinked : Linked P C) (hw : Ready P C w) {validated : Doc}
    (hcheck : (C.checkChild validated).value env w = .ok ()) {fieldName : String}
    {fk : ForeignKeyMeta} (hfk : C.model.getForeignKeys.get? fieldName = some fk)
    (htarget : fk.targetModel.collectionName = P.name) (hne : validated.get fieldName ≠ .none) :
    Live w P.name (validated.get fieldName).toStr := by
  have hchecker : CollectionManager.fkChecker C.name fieldName fk ∈ C.fkCheckers.values := by
    rw [hlinked.wired]
    exact CollectionManager.mem_buildFkCheckers hfk
  have hturn := (Prog.value_forM_of_readOnly fun _ _ =>
    ReferentialIntegrityChecker.readOnly_checkChildInsert).mp hcheck _ hchecker
  obtain ⟨d, hget⟩ := ReferentialIntegrityChecker.get_of_checkChildInsert hturn hne
  have hparent : (CollectionManager.fkChecker C.name fieldName fk).parentCollection = P.name :=
    htarget
  rw [hparent] at hget
  have hrow := get_of_ok hw.serving hw.parent hget
  rw [Table.get_eq_map_liveRow] at hrow
  obtain ⟨r, hr, -⟩ := Option.map_eq_some_iff.mp hrow.symm
  show ((tables w.disk P.name).liveRow _).isSome
  exact Option.isSome_iff_exists.mpr ⟨r, hr⟩

/-- A reference after an admitted write is one of the document written, and then
it has been checked, or an old one of another document. -/
theorem Refers.before (hlinked : Linked P C) (hw : Ready P C w) (hself : self = P ∨ self = C)
    {request : SchemaCall} {op : WriteOp} (hadmits : self.Admits env w request op)
    (hchanged : Changed w w' self.name ((tables w.disk self.name).set op.docId op.line.slot) im')
    {child fieldName parent : String} {fk : ForeignKeyMeta}
    (h : Refers P C w' child fieldName fk parent) :
    (op.line.slot.isSome ∧ Live w P.name parent) ∨
      (Refers P C w child fieldName fk parent ∧ (C.name, child) ≠ (self.name, op.docId)) := by
  obtain ⟨hfk, htarget, r, hr, hne, hparent⟩ := h
  rw [liveRow_of_write hchanged] at hr
  split at hr
  -- the document that refers is the one written
  · next hnew =>
      obtain rfl : self = C := hlinked.eq_child hself (Prod.mk.inj hnew).1
      obtain ⟨docId, -, rfl⟩ | ⟨validated, hchecked⟩ := hadmits.delete_or_document
      · cases hr
      · obtain ⟨hslot, hget⟩ := hchecked.slot_line (hlinked.model hself)
        rw [hslot] at hr
        cases hr
        rw [hget _ (Model.mem_keys_of_mem_getForeignKeys (OrdDict.mem_keys_of_get? hfk))]
          at hne hparent
        rw [hslot, ← hparent]
        exact Or.inl ⟨rfl, live_of_checkChild hlinked hw hchecked.child hfk htarget hne⟩
  · next hother => exact Or.inr ⟨⟨hfk, htarget, r, hr, hne, hparent⟩, hother⟩

/-- **An admitted write keeps the references live**, unless it deletes a parent
with children. -/
theorem ReferencesLive.admits (h : ReferencesLive P C w) (hlinked : Linked P C)
    (hw : Ready P C w) (hself : self = P ∨ self = C) {request : SchemaCall} {op : WriteOp}
    (hadmits : self.Admits env w request op)
    (hspares : SparesParents P C w env (.call self request))
    (hchanged : Changed w w' self.name ((tables w.disk self.name).set op.docId op.line.slot) im') :
    ReferencesLive P C w' := by
  intro child fieldName fk parent href
  rw [Live, liveRow_of_write hchanged]
  obtain ⟨hslot, hlive⟩ | ⟨hold, hother⟩ := href.before hlinked hw hself hadmits hchanged
  · split
    · exact hslot
    · exact hlive
  · split
    · next hparent =>
        -- the parent itself is written: by a document, or the delete is of a parent
        obtain ⟨docId, rfl, rfl⟩ | ⟨validated, hchecked⟩ := hadmits.delete_or_document
        · obtain ⟨hname, rfl⟩ := Prod.mk.inj hparent
          obtain rfl : self = P := hlinked.eq_parent hself hname
          exact absurd ⟨hold, hother⟩ (hspares _ rfl child fieldName fk)
        · rw [(hchecked.slot_line (hlinked.model hself)).1]
          rfl
    · exact h child fieldName fk parent hold

/-- **Every step keeps the references live**, unless it deletes a parent with
children. -/
theorem StepEffect.referencesLive {step : SchemaStep} (heffect : StepEffect env w step w')
    (h : ReferencesLive P C w) (hlinked : Linked P C) (hw : Ready P C w)
    (hstep : ∀ sc request, step = .call sc request → sc = P ∨ sc = C)
    (hspares : SparesParents P C w env step) : ReferencesLive P C w' := by
  cases heffect with
  | nothing => exact h
  | raised him hrev hchanged => exact h.changed hchanged fun _ => rfl
  | wrote him hadmits hrev hchanged =>
      exact h.admits hlinked hw (hstep _ _ rfl) hadmits hspares hchanged
  | compacted him hchanged => exact h.changed hchanged (Table.liveRow_live _)

/-- A step of a run has an effect, and the collections stay registered. -/
theorem Ready.step (hw : Ready P C w) {step : SchemaStep}
    (hstep : ∀ sc request, step = .call sc request → sc = P ∨ sc = C) (env : Env) :
    StepEffect env w step (step.exec env w) ∧ Ready P C (step.exec env w) := by
  have heffect : StepEffect env w step (step.exec env w) := by
    apply stepEffect_exec env hw.serving
    intro sc request hcall
    obtain rfl | rfl := hstep sc request hcall
    · exact hw.parent
    · exact hw.child
  obtain ⟨hserving, hkeys⟩ := heffect.serving hw.serving
  exact ⟨heffect, hserving, hkeys ▸ hw.parent, hkeys ▸ hw.child⟩

/-- Deleting a parent leaves its children as they were. -/
theorem liveRow_after_delete (env : Env) (hw : Ready P C w) {parent c child : String}
    (hother : (c, child) ≠ (P.name, parent)) :
    (tables ((P.delete parent).exec env w).disk c).liveRow child =
      (tables w.disk c).liveRow child := by
  obtain ⟨im, him⟩ := OrdDict.exists_get?_of_mem hw.parent
  obtain ⟨_, _, -, -, hchanged⟩ | ⟨op, _, hadmits, -, -, hchanged⟩ :=
    P.perform_settled env hw.serving him (.delete parent)
  · refine (liveRow_of_changed hchanged c child).trans ?_
    split
    · next hc => rw [hc]
    · rfl
  · cases hadmits
    exact (liveRow_of_write hchanged c child).trans (if_neg hother)

/-- **No rule is enforced**: whatever it is, a delete of a parent does not do
with a child what the rule says. -/
theorem not_enforced (hw : Ready P C w) {parent child fieldName : String} {fk : ForeignKeyMeta}
    (hchild : IsChild P C w child fieldName fk parent) (rule : OnDelete) :
    ¬ rule.Enforced ((P.delete parent).value env w) w ((P.delete parent).exec env w) C child
      fieldName := by
  obtain ⟨⟨-, -, r, hr, hne, -⟩, hother⟩ := hchild
  have hrow := (liveRow_after_delete env hw hother).trans hr
  cases rule with
  -- a delete raises for want of a lock only
  | restrict =>
      rintro ⟨⟨msg, hvalue⟩, -⟩
      obtain ⟨im, him⟩ := OrdDict.exists_get?_of_mem hw.parent
      obtain ⟨mode, hmode⟩ := SchemaCollection.lockErrorsOnly_delete hw.serving him parent _ hvalue
      cases hmode
  -- the child is as it was
  | cascade =>
      intro hdead
      apply hdead
      rw [Live, hrow]
      rfl
  | setNull =>
      rintro ⟨r', hr', hnone⟩
      obtain rfl : r = r' := Option.some.inj (hrow.symm.trans hr')
      exact hne hnone

end Step

/-! ### Runs -/

/-- **Referential integrity.**  Take a parent and a child collection, wired by
the manager, in a state in which every reference from the child to the parent is
live, and any sequence of inserts, updates and deletes on both and of
compactions, each in surroundings of its own and each succeeding or raising.
Every reference is live in every state, and every delete enforces the `on_delete`
rules, if and only if no step deletes a parent that another live document refers
to. -/
theorem references_live_iff (P C : SchemaCollection) (w₀ : Database)
    (steps : List (Env × SchemaStep))
    (hwired : C.fkCheckers = CollectionManager.buildFkCheckers C.name C.model)
    (hPmodel : P.model.JsonNative) (hCmodel : C.model.JsonNative)
    (hname : P.name = C.name → P = C) (hw : Serving w₀) (hP : P.name ∈ w₀.mem.keys)
    (hC : C.name ∈ w₀.mem.keys) (h0 : ReferencesLive P C w₀)
    (hsteps : ∀ s ∈ steps, ∀ sc request, s.2 = .call sc request → sc = P ∨ sc = C) :
    Throughout (ReferencesLive P C) w₀ steps ∧ EachStep (EnforcesOnDelete P C) w₀ steps ↔
      EachStep (SparesParents P C) w₀ steps := by
  have hlinked : Linked P C := ⟨hwired, hPmodel, hCmodel, hname⟩
  have hready : Ready P C w₀ := ⟨hw, hP, hC⟩
  have hrun : Throughout (Ready P C) w₀ steps :=
    Throughout.of_invariant hready fun s hs w hw => (hw.step (hsteps s hs) s.1).2
  constructor
  · rintro ⟨-, henforces⟩
    apply henforces.imp hrun
    intro s _ w hw henforced parent hcall child fieldName fk hchild
    exact not_enforced hw hchild fk.onDelete (henforced parent hcall child fieldName fk hchild)
  · intro hspares
    constructor
    · have hboth : Throughout (fun w => Ready P C w ∧ ReferencesLive P C w) w₀ steps := by
        apply Throughout.of_eachStep ⟨hready, h0⟩ hspares
        rintro s hs w ⟨hw, hlive⟩ hspares
        obtain ⟨heffect, hw'⟩ := hw.step (hsteps s hs) s.1
        exact ⟨hw', heffect.referencesLive hlive hlinked hw (hsteps s hs) hspares⟩
      exact hboth.mono fun w h => h.2
    · apply hspares.imp hrun
      intro s _ w _ hspares parent hcall child fieldName fk hchild
      exact absurd hchild (hspares parent hcall child fieldName fk)

/-! ### A shop -/

/-- Two empty collections without indexes. -/
def shopDb : Database where
  mem := OrdDict.ofList
    [("customers", IndexManager.new "customers" []), ("orders", IndexManager.new "orders" [])]
  disk :=
    { Disk.empty with
      jsonl := fun file =>
        if file = "customers.jsonl" ∨ file = "orders.jsonl" then some [] else none }

theorem shopDb_serving : Serving shopDb := by
  show ∀ c ∈ ["customers", "orders"], _
  simp [shopDb, jsonlPath]

def customers : SchemaCollection :=
  CollectionManager.schemaCollection "customers" (textModel "Customer" (OrdDict.ofList
    [("id", ⟨[.field ⟨true, false, false⟩]⟩)]))

/-- The foreign key of an order. -/
def customerKey : ForeignKeyMeta := ⟨⟨"customer", some "id"⟩, .restrict⟩

def orders : SchemaCollection :=
  CollectionManager.schemaCollection "orders" (textModel "Order" (OrdDict.ofList
    [("id", ⟨[.field ⟨true, false, false⟩]⟩), ("customer_id", ⟨[.foreignKey customerKey]⟩)]))

def insertCustomer (i : String) : Env × SchemaStep :=
  (onlyClient, .call customers (.insert (OrdDict.ofList [("id", .str i)])))

def orderDoc (i customer : String) : Doc :=
  OrdDict.ofList [("id", .str i), ("customer_id", .str customer)]

def insertOrder (i customer : String) : Env × SchemaStep :=
  (onlyClient, .call orders (.insert (orderDoc i customer)))

def deleteCustomer (i : String) : Env × SchemaStep :=
  (onlyClient, .call customers (.delete i))

/-- An order is stored as it is asked for, and it refers to its customer. -/
theorem refers_order {w : Database} {i customer : String}
    (h : (tables w.disk "orders").liveRow i = some (Record.ofDoc i (orderDoc i customer))) :
    Refers customers orders w i "customer_id" customerKey customer := by
  have hget : Doc.get (Record.ofDoc i (orderDoc i customer)).doc "customer_id" = .str customer :=
    rfl
  refine ⟨rfl, rfl, _, h, ?_, ?_⟩
  · rw [hget]
    simp
  · rw [hget]
    rfl

/-- A customer with an order is deleted under `restrict`, and the order refers
to nothing. -/
theorem references_orphaned :
    let steps := [insertCustomer "c1", insertOrder "o1" "c1", deleteCustomer "c1"]
    ¬ Throughout (ReferencesLive customers orders) shopDb steps ∧
      ¬ EachStep (EnforcesOnDelete customers orders) shopDb steps := by
  intro steps
  constructor
  · rintro ⟨-, -, -, hlive⟩
    have hdead := hlive "o1" "customer_id" customerKey "c1" (refers_order (by decide))
    exact absurd hdead (by decide)
  · rintro ⟨-, -, henforced, -⟩
    obtain ⟨⟨msg, hvalue⟩, -⟩ := henforced "c1" rfl "o1" "customer_id" customerKey
      ⟨refers_order (by decide), by decide⟩
    -- the delete returns
    cases hvalue

/-- A customer without orders is deleted. -/
theorem references_live_shop :
    let steps := [insertCustomer "c1", insertCustomer "c2", insertOrder "o1" "c1",
      deleteCustomer "c2"]
    Throughout (ReferencesLive customers orders) shopDb steps ∧
      EachStep (EnforcesOnDelete customers orders) shopDb steps := by
  intro steps
  refine (references_live_iff customers orders shopDb steps rfl
    (jsonNative_textModel "Customer" (by decide)) (jsonNative_textModel "Order" (by decide))
    (fun h => absurd h (by decide)) shopDb_serving (by decide) (by decide) ?_ ?_).mpr ?_
  · rintro child fieldName fk parent ⟨-, -, r, hr, -⟩
    cases hr
  · simp [steps, insertCustomer, insertOrder, deleteCustomer]
  · have hinsert : ∀ {self : SchemaCollection} {d : Doc} {w : Database},
        SparesParents customers orders w onlyClient (.call self (.insert d)) := by
      intro self d w parent h
      cases (SchemaStep.call.inj h).2
    refine ⟨hinsert, hinsert, hinsert, ?_, trivial⟩
    rintro parent ⟨⟩ child fieldName fk ⟨⟨hfk, -, r, hr, -, hparent⟩, -⟩
    -- the only reference is to another customer
    have hfield : (fieldName, fk) ∈ [("customer_id", customerKey)] :=
      OrdDict.mem_entries_iff.mpr hfk
    have horder : (child, some r) ∈ [("o1", some (Record.ofDoc "o1" (orderDoc "o1" "c1")))] :=
      OrdDict.mem_entries_iff.mpr (Table.liveRow_eq_some_iff.mp hr)
    obtain ⟨rfl, -⟩ := Prod.mk.inj (List.mem_singleton.mp hfield)
    obtain ⟨-, ⟨⟩⟩ := Prod.mk.inj (List.mem_singleton.mp horder)
    exact absurd hparent (by decide)

end JsonpySql
