/-
JsonpySql/Children.lean

The reverse index and the foreign keys of the live documents.

Under a parent a document is listed once, however many of its fields name the
parent.  A call takes the document out from under every parent its old fields
name and files it under every parent its new fields name, so that fields which
point to the same parent, are cleared or change places come out right
(`mirrors_newReverse`).  What the call relies on is that the document it reads
before the write is the one that was filed: an insert reads none, and must not
take the id of a live document (`childOf_found`).
-/
import JsonpySql.ReferentialIntegrity

namespace JsonpySql

open StorageEngine SchemaCollection InvertedIndex

/-! ### One document -/

section Document

variable {fields : List String} {document document' : Doc} {docId : String} {rev : SortedDict}
  {R : String → String → Prop}

theorem NamesParent.congr (h : ∀ fieldName ∈ fields,
    document.get fieldName = document'.get fieldName) (parentId : String) :
    NamesParent fields document parentId ↔ NamesParent fields document' parentId := by
  apply exists_congr
  intro fieldName
  apply and_congr_right
  intro hfield
  rw [h fieldName hfield]

/-- Registering relates the document to the parents its fields name. -/
theorem mirrors_register (h : Mirrors rev R) :
    Mirrors (register fields docId document rev)
      fun p i => R p i ∨ i = docId ∧ NamesParent fields document p := by
  induction fields generalizing rev R with
  | nil => exact h.congr fun p i => by simp [NamesParent]
  | cons fieldName fields ih =>
      have hfield : Mirrors
          (if document.get fieldName = .none then rev
            else rev.add (document.get fieldName).toStr docId)
          fun p i => R p i ∨
            i = docId ∧ document.get fieldName ≠ .none ∧ (document.get fieldName).toStr = p := by
        split
        · next hnone => exact h.congr fun p i => by simp [hnone]
        · next hsome =>
            apply (h.add _ _).congr
            intro p i
            simp only [hsome, not_false_eq_true, true_and, ne_eq, eq_comm (a := p), and_comm]
      apply (ih hfield).congr
      intro p i
      rw [namesParent_cons, and_or_left, or_assoc]

/-- Unregistering takes it out from under them. -/
theorem mirrors_unregister (h : Mirrors rev R) :
    Mirrors (unregister fields docId document rev)
      fun p i => R p i ∧ ¬(i = docId ∧ NamesParent fields document p) := by
  induction fields generalizing rev R with
  | nil => exact h.congr fun p i => by simp [NamesParent]
  | cons fieldName fields ih =>
      have hfield : Mirrors
          (if document.get fieldName = .none then rev
            else rev.remove (document.get fieldName).toStr docId)
          fun p i => R p i ∧
            ¬(i = docId ∧ document.get fieldName ≠ .none ∧
              (document.get fieldName).toStr = p) := by
        split
        · next hnone => exact h.congr fun p i => by simp [hnone]
        · next hsome =>
            apply (h.remove _ _).congr
            intro p i
            simp only [hsome, not_false_eq_true, true_and, ne_eq, eq_comm (a := p), and_comm]
      apply (ih hfield).congr
      intro p i
      rw [namesParent_cons, and_or_left, not_or, and_assoc]

/-- **A write** takes the document it finds out, and files the one it stores. -/
theorem mirrors_newReverse (h : Mirrors rev R) (op : WriteOp) (t : Table) :
    Mirrors (op.newReverse fields t rev) fun p i =>
      (R p i ∧ ¬(i = op.docId ∧ ∃ old, op.found t = some old ∧ NamesParent fields old p)) ∨
        i = op.docId ∧ ∃ new, op.document = some new ∧ NamesParent fields new p := by
  rw [WriteOp.newReverse]
  cases op.found t with
  | none =>
      cases op.document with
      | none => exact h.congr fun p i => by simp
      | some new => exact (mirrors_register h).congr fun p i => by simp
  | some old =>
      cases op.document with
      | none => exact (mirrors_unregister h).congr fun p i => by simp
      | some new => exact (mirrors_register (mirrors_unregister h)).congr fun p i => by simp

end Document

/-! ### One call -/

/-- The document stored under `docId` refers to the parent. -/
def ChildOf (C : SchemaCollection) (t : Table) (parentId docId : String) : Prop :=
  ∃ r, t.liveRow docId = some r ∧ NamesParent C.fkMeta.keys r.doc parentId

section Call

variable {C : SchemaCollection} {env : Env} {w : Database} {im : IndexManager}
  {request : SchemaCall} {op : WriteOp}

theorem mem_fields_of_mem_fkMeta {fieldName : String} (h : fieldName ∈ C.fkMeta.keys) :
    fieldName ∈ C.model.modelFields.keys :=
  Model.mem_keys_of_mem_getForeignKeys h

/-- The children after an admitted write. -/
theorem childOf_set (hmodel : C.model.JsonNative) (hadmits : Admits C env w request op)
    (t : Table) (p i : String) : ChildOf C (t.set op.docId op.line.slot) p i ↔
      if i = op.docId then ∃ new, op.document = some new ∧ NamesParent C.fkMeta.keys new p
      else ChildOf C t p i := by
  rw [ChildOf, Table.liveRow_set]
  split
  · obtain ⟨docId, -, rfl⟩ | ⟨validated, hchecked⟩ := hadmits.delete_or_document
    · constructor
      · rintro ⟨r, ⟨⟩, -⟩
      · rintro ⟨new, ⟨⟩, -⟩
    · obtain ⟨hslot, hget⟩ := hchecked.slot_line hmodel
      have hnames : NamesParent C.fkMeta.keys op.line.doc p ↔
          NamesParent C.fkMeta.keys validated p :=
        NamesParent.congr (fun fieldName h => hget fieldName (mem_fields_of_mem_fkMeta h)) p
      rw [hslot, hchecked.document]
      simp [hnames]
  · rfl

/-- A child under the id of an admitted write is found by it, unless it is an
insert. -/
theorem childOf_found (hmodel : C.model.JsonNative)
    (hadmits : Admits C env w request op)
    (hfresh : ∀ document, request = .insert document → ¬Live w C.name op.docId) {p : String}
    (h : ChildOf C (tables w.disk C.name) p op.docId) :
    ∃ old, op.found (tables w.disk C.name) = some old ∧ NamesParent C.fkMeta.keys old p := by
  obtain ⟨r, hr, hnames⟩ := h
  -- the document is read without its id, which is no field
  have hget : (tables w.disk C.name).get op.docId = some r.stripId := by
    rw [Table.get_eq_map_liveRow, hr, Option.map_some]
  have hold : NamesParent C.fkMeta.keys r.stripId p := by
    refine (NamesParent.congr (fun fieldName hfield => ?_) p).mpr hnames
    have hne := (hmodel.field_ne (mem_fields_of_mem_fkMeta hfield)).1
    rw [Doc.get, Doc.get, Record.stripId, OrdDict.get?_erase, if_neg hne]
  cases hadmits with
  | insert =>
      refine absurd ?_ (hfresh _ rfl)
      rw [Live, hr]
      rfl
  | update => exact ⟨r.stripId, hget, hold⟩
  | delete docId => exact ⟨r.stripId, hget, hold⟩

/-- **An admitted write** keeps the reverse index a mirror of the children. -/
theorem mirrors_admits (hmodel : C.model.JsonNative) (hadmits : Admits C env w request op)
    (hfresh : ∀ document, request = .insert document → ¬Live w C.name op.docId)
    (h : Mirrors im.reverse (ChildOf C (tables w.disk C.name))) :
    Mirrors (op.newReverse C.fkMeta.keys (tables w.disk C.name) im.reverse)
      (ChildOf C ((tables w.disk C.name).set op.docId op.line.slot)) := by
  apply (mirrors_newReverse h op (tables w.disk C.name)).congr
  intro p i
  rw [childOf_set hmodel hadmits]
  split
  · next hi =>
      subst hi
      constructor
      · rintro (⟨hchild, hnot⟩ | ⟨-, hnew⟩)
        · exact absurd ⟨rfl, childOf_found hmodel hadmits hfresh hchild⟩ hnot
        · exact hnew
      · exact fun hnew => Or.inr ⟨rfl, hnew⟩
  · next hi => simp [hi]

end Call

/-! ### Runs -/

/-- A call on `C` returns, or raises before any write; and an insert does not
take the id of a live document. -/
structure PlainStep (C : SchemaCollection) (w : Database) (env : Env) (step : SchemaStep) :
    Prop where
  whole : ∀ request, step = .call C request → (request.perform C).value env w = .ok () ∨
    ∃ e, (request.perform C).run env w = ⟨.error e, w.mem, []⟩
  fresh : ∀ document docId, step = .call C (.insert document) →
    (C.insert document).value env w = .ok docId → ¬Live w C.name docId

/-- A call on another collection, or a compaction of another. -/
def SchemaStep.SparesCollection (C : SchemaCollection) : SchemaStep → Prop
  | .call sc _ => sc.name = C.name → sc = C
  | .compact c => c ≠ C.name

/-- The children of a collection are the documents that refer to the parents. -/
def MirrorsChildren (C : SchemaCollection) (w : Database) : Prop :=
  ∃ im, w.mem.get? C.name = some im ∧
    Mirrors im.reverse (ChildOf C (tables w.disk C.name))

section Steps

variable {C : SchemaCollection} {env : Env} {w w' : Database} {step : SchemaStep}

/-- A step on another collection. -/
theorem StepEffect.mirrorsChildren_of_ne (heffect : StepEffect env w step w')
    (hcall : ∀ sc request, step = .call sc request → sc.name ≠ C.name)
    (hcompact : step ≠ .compact C.name) (h : MirrorsChildren C w) : MirrorsChildren C w' := by
  obtain ⟨im, him, hmirrors⟩ := h
  have hkeep : ∀ {c : String} {t' : Table} {im' : IndexManager}, c ≠ C.name →
      Changed w w' c t' im' → MirrorsChildren C w' := by
    intro c t' im' hne hchanged
    refine ⟨im, (hchanged.get?_of_ne hne.symm).trans him, ?_⟩
    rw [hchanged.tables, Function.update_of_ne hne.symm]
    exact hmirrors
  cases heffect with
  | nothing => exact ⟨im, him, hmirrors⟩
  | raised _ _ hchanged => exact hkeep (hcall _ _ rfl) hchanged
  | wrote _ _ _ hchanged => exact hkeep (hcall _ _ rfl) hchanged
  | compacted _ hchanged => exact hkeep (fun hc => hcompact (hc ▸ rfl)) hchanged

/-- **A call.** -/
theorem MirrorsChildren.perform (hmodel : C.model.JsonNative) (hw : Serving w)
    {request : SchemaCall} (hplain : PlainStep C w env (.call C request))
    (h : MirrorsChildren C w) : MirrorsChildren C ((request.perform C).exec env w) := by
  obtain ⟨im, him, hmirrors⟩ := h
  have hunwritten : ∀ {e : PyErr}, (request.perform C).run env w = ⟨.error e, w.mem, []⟩ →
      MirrorsChildren C ((request.perform C).exec env w) := by
    intro e hrun
    rw [Prog.exec, hrun]
    exact ⟨im, him, hmirrors⟩
  cases perform_outcome env hw him request with
  | refused hrun hwhy => exact hunwritten hrun
  | torn hcall hadmits hshared hheld hold herror hchanged =>
      -- the update has written before it raised
      obtain hok | ⟨e, hrun⟩ := hplain.whole request rfl
      · cases herror.symm.trans hok
      · exact hunwritten hrun
  | @wrote op hadmits hfree hok hchanged =>
      refine ⟨_, hchanged.get?_self, ?_⟩
      have htable : tables ((request.perform C).exec env w).disk C.name = _ :=
        hchanged.table_self
      rw [htable]
      refine mirrors_admits hmodel hadmits (fun document hinsert => ?_) hmirrors
      subst hinsert
      exact hplain.fresh document op.docId rfl
        (value_insert hw (OrdDict.mem_keys_of_get? him) hadmits hfree)

/-- **A step.** -/
theorem MirrorsChildren.exec (h : MirrorsChildren C w)
    (heffect : StepEffect env w step (step.exec env w)) (hmodel : C.model.JsonNative)
    (hw : Serving w) (hspares : step.SparesCollection C) (hplain : PlainStep C w env step) :
    MirrorsChildren C (step.exec env w) := by
  cases step with
  | call sc request =>
      by_cases hname : sc.name = C.name
      · obtain rfl := hspares hname
        exact h.perform hmodel hw hplain
      · refine heffect.mirrorsChildren_of_ne ?_ nofun h
        rintro sc' request' ⟨⟩
        exact hname
  | compact c =>
      refine heffect.mirrorsChildren_of_ne nofun ?_ h
      rintro ⟨⟩
      exact hspares rfl

end Steps

/-- `get_children` lists, without duplicates, just the live documents that refer
to the parent, and no parent has an empty list. -/
structure ListsChildren (C : SchemaCollection) (env : Env) (w : Database) : Prop where
  children : ∀ parentId, ∃ ids,
    (StorageEngine.getChildren C.name parentId).value env w = .ok ids ∧ ids.Nodup ∧
      ∀ docId, docId ∈ ids ↔ ∃ r, (tables w.disk C.name).liveRow docId = some r ∧
        NamesParent C.fkMeta.keys r.doc parentId
  nonempty : ∀ im, w.mem.get? C.name = some im →
    ∀ parentId : String, im.reverse[parentId]? ≠ some []

theorem MirrorsChildren.listsChildren {C : SchemaCollection} {w : Database}
    (h : MirrorsChildren C w) (env : Env) : ListsChildren C env w := by
  obtain ⟨im, him, hmirrors⟩ := h
  refine ⟨fun parentId => ⟨_, value_getChildren him, hmirrors.tidy parentId,
    hmirrors.mem_ids parentId⟩, fun im' him' => ?_⟩
  obtain rfl := Option.some.inj (him.symm.trans him')
  exact hmirrors.ne_nil

/-- **The reverse index mirrors the foreign keys.**  Take a collection with any
foreign keys, without documents and with an empty reverse index at first, and any
sequence of inserts, updates and deletes on it, each in surroundings of its own,
which return or raise before any write and among which no insert takes the id of a
live document; with any calls on other collections and compactions of others
between them.  In every state `get_children` lists, without duplicates, just the
ids of the live documents with a foreign key that is not null and whose string is
the parent's, and no parent has an empty list. -/
theorem reverseIndex_mirrors (C : SchemaCollection) (env : Env) (w₀ : Database)
    (steps : List (Env × SchemaStep)) (hmodel : C.model.JsonNative) (hw : Serving w₀)
    (hC : C.name ∈ w₀.mem.keys) (hempty : ∀ docId, (tables w₀.disk C.name).get docId = none)
    (hreverse : ∀ im, w₀.mem.get? C.name = some im → im.reverse = ∅)
    (hreg : ∀ s ∈ steps, ∀ sc request, s.2 = .call sc request → sc.name ∈ w₀.mem.keys)
    (hspares : ∀ s ∈ steps, s.2.SparesCollection C) (hplain : EachStep (PlainStep C) w₀ steps) :
    Throughout (ListsChildren C env) w₀ steps := by
  obtain ⟨im, him⟩ := OrdDict.exists_get?_of_mem hC
  have hstart : MirrorsChildren C w₀ := by
    refine ⟨im, him, ?_⟩
    rw [hreverse im him]
    apply Mirrors.empty
    rintro p i ⟨r, hr, -⟩
    have hnone := hempty i
    rw [Table.get_eq_map_liveRow, hr] at hnone
    cases hnone
  have hrun : Throughout (fun w => Serving w ∧ w.mem.keys = w₀.mem.keys ∧ MirrorsChildren C w)
      w₀ steps := by
    refine Throughout.of_eachStep ⟨hw, rfl, hstart⟩ hplain ?_
    rintro s hs w ⟨hw, hkeys, h⟩ hplain
    obtain ⟨heffect, hw', hkeys'⟩ := serving_step ⟨hw, hkeys⟩ (hreg s hs)
    exact ⟨hw', hkeys', h.exec heffect hmodel hw (hspares s hs) hplain⟩
  exact hrun.mono fun w h => h.2.2.listsChildren env

/-! ### Orders that somebody else pays -/

/-- Orders with two foreign keys. -/
def paidOrders : SchemaCollection :=
  CollectionManager.schemaCollection "orders" (textModel "Order" (OrdDict.ofList
    [("id", ⟨[.field ⟨true, false, false⟩]⟩), ("customer_id", ⟨[.foreignKey customerKey]⟩),
      ("payer_id", ⟨[.foreignKey customerKey]⟩)]))

def paidOrder (i customer payer : String) : Doc :=
  OrdDict.ofList [("id", .str i), ("customer_id", .str customer), ("payer_id", .str payer)]

/-- An order whose customer pays, and then another customer, who changes places
with the first. -/
theorem reverseIndex_mirrors_orders :
    Throughout (ListsChildren paidOrders onlyClient) shopDb
      [insertCustomer "c1", insertCustomer "c2",
        (onlyClient, .call paidOrders (.insert (paidOrder "o1" "c1" "c1"))),
        (onlyClient, .call paidOrders (.update "o1" (paidOrder "o1" "c1" "c2"))),
        (onlyClient, .call paidOrders (.update "o1" (paidOrder "o1" "c2" "c1"))),
        (onlyClient, .call paidOrders (.delete "o1"))] := by
  have hcustomer : ∀ {w : Database} (i : String),
      PlainStep paidOrders w onlyClient (insertCustomer i).2 := by
    intro w i
    have hother : ∀ request, (insertCustomer i).2 ≠ .call paidOrders request := by
      intro request hcall
      exact absurd (congrArg SchemaCollection.name (SchemaStep.call.inj hcall).1) (by decide)
    exact ⟨fun request hcall => absurd hcall (hother request),
      fun _ _ hcall => absurd hcall (hother _)⟩
  refine reverseIndex_mirrors paidOrders onlyClient shopDb _
    (jsonNative_textModel "Order" (by decide)) shopDb_serving (by decide) (fun _ => rfl) ?_ ?_ ?_
    ⟨hcustomer "c1", hcustomer "c2", ?_, ?_, ?_, ?_, trivial⟩
  · rintro im ⟨⟩
    rfl
  · simp only [List.forall_mem_cons, List.not_mem_nil, false_imp_iff, implies_true, and_true]
    refine ⟨?_, ?_, ?_, ?_, ?_, ?_⟩ <;>
    · rintro sc request ⟨⟩
      decide
  · simp only [List.forall_mem_cons, List.not_mem_nil, false_imp_iff, implies_true, and_true]
    refine ⟨?_, ?_, fun _ => rfl, fun _ => rfl, fun _ => rfl, fun _ => rfl⟩ <;>
    exact fun hname => absurd hname (by decide)
  · refine ⟨?_, ?_⟩
    · rintro request ⟨⟩
      exact Or.inl rfl
    · rintro document docId ⟨⟩ hid
      obtain rfl : "o1" = docId := Except.ok.inj hid
      decide
  all_goals
    refine ⟨?_, nofun⟩
    rintro request ⟨⟩
    exact Or.inl rfl

end JsonpySql
