/-
JsonpySql/BatchConstraints.lean

Constraints and transactions.

The constraint checks live in `SchemaCollection`; a transaction writes through
the engine, and nothing is checked when it commits.  What a commit leaves at an
id is what the last operation on it leaves (`lineAfter`).  So a commit keeps the
constraints just if the batch respects them itself: what it writes has unique
values and live parents, and no document it leaves alone loses its parent
(`constraints_kept_iff`).
-/
import JsonpySql.Atomicity
import JsonpySql.LostChildren

namespace JsonpySql

open StorageEngine

/-! ### Constraints -/

/-- No two live documents of a collection have equal values in a unique field, and
every non-null foreign key refers to a live document. -/
structure Satisfies (T : String → Table) (sc : SchemaCollection) : Prop where
  unique : ∀ fieldName ∈ sc.model.getUniqueFields, ∀ i j r r', i ≠ j →
    (T sc.name).liveRow i = some r → (T sc.name).liveRow j = some r' →
    Doc.get r.doc fieldName ≠ .none →
    (Doc.get r.doc fieldName).eq (Doc.get r'.doc fieldName) = false
  references : ∀ fieldName fk, sc.model.getForeignKeys.get? fieldName = some fk → ∀ i r,
    (T sc.name).liveRow i = some r → Doc.get r.doc fieldName ≠ .none →
    ((T fk.targetModel.collectionName).liveRow (Doc.get r.doc fieldName).toStr).isSome

/-- The constraints of every collection are satisfied. -/
def ConstraintsSatisfied (S : List SchemaCollection) (w : Database) : Prop :=
  ∀ sc ∈ S, Satisfies (tables w.disk) sc

/-- The batch has an operation on this document. -/
def Touches (ops : List WriteOp) (c i : String) : Prop := ∃ op ∈ ops, op.target = (c, i)

/-- What the last operations on the documents of a batch leave respects the
constraints of a collection: no document the batch writes has a unique value of
another one, every document it writes has its parents, and no document it leaves
alone loses a parent to the batch. -/
structure BatchRespects (T : String → Table) (ops : List WriteOp) (sc : SchemaCollection) :
    Prop where
  unique : ∀ fieldName ∈ sc.model.getUniqueFields, ∀ i j r r', i ≠ j →
    Touches ops sc.name i ∨ Touches ops sc.name j →
    lineAfter T ops sc.name i = some r → lineAfter T ops sc.name j = some r' →
    Doc.get r.doc fieldName ≠ .none →
    (Doc.get r.doc fieldName).eq (Doc.get r'.doc fieldName) = false
  written : ∀ fieldName fk, sc.model.getForeignKeys.get? fieldName = some fk → ∀ i r,
    Touches ops sc.name i → lineAfter T ops sc.name i = some r →
    Doc.get r.doc fieldName ≠ .none →
    (lineAfter T ops fk.targetModel.collectionName (Doc.get r.doc fieldName).toStr).isSome
  kept : ∀ fieldName fk, sc.model.getForeignKeys.get? fieldName = some fk → ∀ i r,
    ¬Touches ops sc.name i → (T sc.name).liveRow i = some r →
    Doc.get r.doc fieldName ≠ .none →
    Touches ops fk.targetModel.collectionName (Doc.get r.doc fieldName).toStr →
    (lineAfter T ops fk.targetModel.collectionName (Doc.get r.doc fieldName).toStr).isSome

/-! ### A batch on the tables -/

variable {T : String → Table} {ops : List WriteOp}

/-- A document the batch does not name stays. -/
theorem lineAfter_of_not_touches {c i : String} (h : ¬Touches ops c i) :
    lineAfter T ops c i = (T c).liveRow i := by
  have hnone : ops.filter (fun op => op.target = (c, i)) = [] := by
    rw [List.filter_eq_nil_iff]
    intro op hop htarget
    exact h ⟨op, hop, of_decide_eq_true htarget⟩
  rw [lineAfter, hnone]
  rfl

/-- **A batch keeps the constraints of a collection just if it respects them.** -/
theorem satisfies_run_iff {sc : SchemaCollection} (h : Satisfies T sc) :
    Satisfies (store.run T (ops.map WriteOp.toPut)) sc ↔ BatchRespects T ops sc := by
  have hafter : ∀ c i, (store.run T (ops.map WriteOp.toPut) c).liveRow i = lineAfter T ops c i :=
    liveRow_run T ops
  constructor
  · rintro ⟨hunique, hreferences⟩
    simp only [hafter] at hunique hreferences
    refine ⟨fun fieldName hfield i j r r' hne _ => hunique fieldName hfield i j r r' hne,
      fun fieldName fk hfk i r _ => hreferences fieldName fk hfk i r, ?_⟩
    intro fieldName fk hfk i r hleft hr hvalue _
    rw [← lineAfter_of_not_touches hleft] at hr
    exact hreferences fieldName fk hfk i r hr hvalue
  · rintro ⟨hunique, hwritten, hkept⟩
    refine ⟨fun fieldName hfield i j r r' hne hr hr' hvalue => ?_,
      fun fieldName fk hfk i r hr hvalue => ?_⟩
    · rw [hafter] at hr hr'
      rcases Classical.em (Touches ops sc.name i ∨ Touches ops sc.name j) with htouched | hleft
      · exact hunique fieldName hfield i j r r' hne htouched hr hr' hvalue
      · -- two documents the batch leaves alone
        obtain ⟨hi, hj⟩ := not_or.mp hleft
        rw [lineAfter_of_not_touches hi] at hr
        rw [lineAfter_of_not_touches hj] at hr'
        exact h.unique fieldName hfield i j r r' hne hr hr' hvalue
    · rw [hafter] at hr ⊢
      rcases Classical.em (Touches ops sc.name i) with htouched | hleft
      · exact hwritten fieldName fk hfk i r htouched hr hvalue
      · rw [lineAfter_of_not_touches hleft] at hr
        rcases Classical.em (Touches ops fk.targetModel.collectionName
            (Doc.get r.doc fieldName).toStr) with hparent | hparent
        · exact hkept fieldName fk hfk i r hleft hr hvalue hparent
        · rw [lineAfter_of_not_touches hparent]
          exact h.references fieldName fk hfk i r hr hvalue

/-! ### A transaction -/

variable {env : Env} {w : Database} {file : String}

/-- What a transaction on registered collections does to the tables. -/
theorem whole_spec (env : Env) (hw : Serving w) (hfresh : w.disk.wal.get? file = none)
    (hne : ops ≠ []) (hreg : ∀ op ∈ ops, op.collection ∈ w.mem.keys) :
    (Transaction.whole file ops).value env w = .ok () ∧
      tables ((Transaction.whole file ops).exec env w).disk =
        store.run (tables w.disk) (ops.map WriteOp.toPut) := by
  obtain ⟨hok, -, -, htables⟩ := whole_simulation env (fun w T => tables w.disk = T) entryTableStep
    hw hfresh hne hreg rfl (lockstep_tables fun _ => True).frame
    fun _ _ _ _ _ _ => (lockstep_tables fun _ => True).entry trivial
  rw [foldl_entryTableStep, store_run_walEntries] at htables
  exact ⟨hok, htables⟩

/-- Without an operation there is no log to read, and the commit raises. -/
theorem ne_nil_of_whole (hfresh : w.disk.wal.get? file = none)
    (hok : (Transaction.whole file ops).value env w = .ok ()) : ops ≠ [] := by
  rintro rfl
  exact absurd (hok.symm.trans (congrArg Outcome.result (run_commit_of_missing env hfresh))) nofun

/-- **When a transaction keeps the constraints.**  Take schema collections whose
live documents satisfy their constraints, and a transaction of operations on
them that commits without raising.  The constraints are satisfied afterwards
just if the batch respects them. -/
theorem constraints_kept_iff (S : List SchemaCollection) (file : String) (ops : List WriteOp)
    (env : Env) (hw : Serving w) (hfresh : w.disk.wal.get? file = none)
    (hS : ∀ sc ∈ S, sc.name ∈ w.mem.keys) (hops : ∀ op ∈ ops, ∃ sc ∈ S, op.collection = sc.name)
    (h : ConstraintsSatisfied S w) (hok : (Transaction.whole file ops).value env w = .ok ()) :
    ConstraintsSatisfied S ((Transaction.whole file ops).exec env w) ↔
      ∀ sc ∈ S, BatchRespects (tables w.disk) ops sc := by
  have hreg : ∀ op ∈ ops, op.collection ∈ w.mem.keys := by
    intro op hop
    obtain ⟨sc, hsc, hcollection⟩ := hops op hop
    exact hcollection ▸ hS sc hsc
  obtain ⟨-, htables⟩ := whole_spec env hw hfresh (ne_nil_of_whole hfresh hok) hreg
  rw [ConstraintsSatisfied, htables]
  exact forall₂_congr fun sc hsc => satisfies_run_iff (h sc hsc)

/-- Without documents every constraint is satisfied. -/
theorem Satisfies.empty {sc : SchemaCollection} (h : ∀ i, (T sc.name).liveRow i = none) :
    Satisfies T sc where
  unique fieldName _ i j r r' _ hr := by simp [h i] at hr
  references fieldName fk _ i r hr := by simp [h i] at hr

theorem indexedShopDb_satisfied : ConstraintsSatisfied [customers, orders] indexedShopDb := by
  intro sc hsc
  rw [List.mem_cons, List.mem_singleton] at hsc
  obtain rfl | rfl := hsc <;> exact .empty fun _ => rfl

/-- An order of nobody is committed. -/
theorem constraints_violated :
    let p := Transaction.whole "a.wal" [.insert "orders" "o1" (orderDoc "o1" "c1")]
    ConstraintsSatisfied [customers, orders] indexedShopDb ∧
      p.value onlyClient indexedShopDb = .ok () ∧
      ¬ConstraintsSatisfied [customers, orders] (p.exec onlyClient indexedShopDb) := by
  refine ⟨indexedShopDb_satisfied, rfl, fun h => ?_⟩
  have hparent := (h orders (List.mem_cons_of_mem _ List.mem_cons_self)).references "customer_id"
    customerKey rfl "o1" _ rfl (by decide)
  exact absurd hparent (by decide)

/-- A customer and an order of this customer are committed together, and another
customer is deleted. -/
theorem constraints_kept_shop :
    let ops : List WriteOp := [.insert "orders" "o1" (orderDoc "o1" "c1"),
      .insert "customers" "c1" (OrdDict.ofList [("id", .str "c1")]), .delete "customers" "c2"]
    ConstraintsSatisfied [customers, orders]
      ((Transaction.whole "a.wal" ops).exec onlyClient indexedShopDb) := by
  intro ops
  have hok : (Transaction.whole "a.wal" ops).value onlyClient indexedShopDb = .ok () :=
    (whole_spec onlyClient indexedShopDb_consistent.serving rfl (List.cons_ne_nil _ _)
      (by decide)).1
  refine (constraints_kept_iff [customers, orders] "a.wal" ops onlyClient
    indexedShopDb_consistent.serving rfl (by decide) ?_ indexedShopDb_satisfied hok).mpr ?_
  · simp [ops, WriteOp.collection, customers, orders, CollectionManager.schemaCollection]
  · intro sc hsc
    rw [List.mem_cons, List.mem_singleton] at hsc
    obtain rfl | rfl := hsc
    -- customers have no constraints
    · refine ⟨fun _ hunique => absurd hunique List.not_mem_nil, fun _ _ hfk => ?_,
        fun _ _ hfk => ?_⟩ <;> cases hfk
    · refine ⟨fun _ hunique => absurd hunique List.not_mem_nil,
        fun fieldName fk hfk i r htouched hr _ => ?_, fun _ _ _ i r _ hr => ?_⟩
      -- the order has its customer from the same batch
      · have hfield : (fieldName, fk) ∈ [("customer_id", customerKey)] :=
          OrdDict.mem_entries_iff.mpr hfk
        obtain ⟨rfl, rfl⟩ := Prod.mk.inj (List.mem_singleton.mp hfield)
        obtain rfl : i = "o1" := by
          obtain ⟨op, hop, htarget⟩ := htouched
          rw [List.mem_cons, List.mem_cons, List.mem_singleton] at hop
          obtain rfl | rfl | rfl := hop
          · exact (Prod.mk.inj htarget).2.symm
          · exact absurd (Prod.mk.inj htarget).1 (by decide)
          · exact absurd (Prod.mk.inj htarget).1 (by decide)
        obtain rfl : Record.ofDoc "o1" (orderDoc "o1" "c1") = r := Option.some.inj hr
        decide
      -- there were no orders
      · cases hr

end JsonpySql
