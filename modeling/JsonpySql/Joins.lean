/-
JsonpySql/Joins.lean

Filters and joins.

A builder does not keep the order of its clauses: a predicate given after a join
filters the left documents, before they are joined.  Where the planner makes nothing
of it, the query yields the joined rows that satisfy the predicate exactly when the
predicate answers on every left document what it answers on the rows joined from it
(`where_after_join_iff`).  Where the planner finds an index for it, the left documents
are read through the index, without their `_id` (`where_after_join_indexed`).
-/
import JsonpySql.Paging

namespace JsonpySql

/-! ### Filtering before and after -/

section Lists

variable {α β : Type} {J : α → List β} {k : α → Bool} {q : β → Bool} {l : List α}

/-- What the early filter keeps is part of what the late one does, if it keeps
nothing else. -/
theorem length_flatMap_filter_le (h : ∀ a ∈ l, k a = true → ∀ b ∈ J a, q b = true) :
    ((l.filter k).flatMap J).length ≤ ((l.flatMap J).filter q).length := by
  induction l with
  | nil => simp
  | cons a l ih =>
      have hl := ih fun a' ha' => h a' (List.mem_cons_of_mem _ ha')
      rw [List.flatMap_cons, List.filter_append, List.length_append, List.filter_cons]
      split
      · rename_i hk
        rw [List.flatMap_cons, List.length_append,
          List.filter_eq_self.mpr (h a List.mem_cons_self hk)]
        omega
      · omega

theorem forall_eq_of_flatMap_filter (hkept : ∀ a ∈ l, k a = true → ∀ b ∈ J a, q b = true)
    (heq : (l.filter k).flatMap J = (l.flatMap J).filter q) : ∀ a ∈ l, ∀ b ∈ J a, q b = k a := by
  induction l with
  | nil => exact fun a ha => absurd ha List.not_mem_nil
  | cons a l ih =>
      have hrest : ∀ a' ∈ l, k a' = true → ∀ b ∈ J a', q b = true :=
        fun a' ha' => hkept a' (List.mem_cons_of_mem _ ha')
      rw [List.flatMap_cons, List.filter_append, List.filter_cons] at heq
      rcases hk : k a with _ | _
      · rw [hk, if_neg Bool.false_ne_true] at heq
        -- the late filter keeps no row of this element
        have hlength := congrArg List.length heq
        have hle := length_flatMap_filter_le hrest
        rw [List.length_append] at hlength
        have hnil : (J a).filter q = [] := List.eq_nil_of_length_eq_zero (by omega)
        rw [hnil, List.nil_append] at heq
        intro a' ha' b hb
        rcases List.mem_cons.mp ha' with rfl | ha'
        · rw [hk, ← Bool.not_eq_true]
          exact List.filter_eq_nil_iff.mp hnil b hb
        · exact ih hrest heq a' ha' b hb
      · have hall : (J a).filter q = J a :=
          List.filter_eq_self.mpr (hkept a List.mem_cons_self hk)
        rw [hk, if_pos rfl, List.flatMap_cons, hall] at heq
        intro a' ha' b hb
        rcases List.mem_cons.mp ha' with rfl | ha'
        · rw [hk]
          exact hkept a' List.mem_cons_self hk b hb
        · exact ih hrest (List.append_cancel_left heq) a' ha' b hb

/-- **Filtering early is filtering late** when both agree on every row. -/
theorem flatMap_filter_iff : (l.filter k).flatMap J = (l.flatMap J).filter q ↔
    ∀ a ∈ l, ∀ b ∈ J a, q b = k a := by
  constructor
  · intro heq
    refine forall_eq_of_flatMap_filter (fun a ha hk b hb => ?_) heq
    have hmem : b ∈ (l.filter k).flatMap J :=
      List.mem_flatMap.mpr ⟨a, List.mem_filter.mpr ⟨ha, hk⟩, hb⟩
    rw [heq] at hmem
    exact (List.mem_filter.mp hmem).2
  · intro h
    induction l with
    | nil => rfl
    | cons a l ih =>
        have hl := ih fun a' ha' => h a' (List.mem_cons_of_mem _ ha')
        rw [List.flatMap_cons, List.filter_append, List.filter_cons, ← hl]
        have ha := h a List.mem_cons_self
        rcases hk : k a with _ | _
        · have hnil : (J a).filter q = [] :=
            List.filter_eq_nil_iff.mpr fun b hb => by simp [ha b hb, hk]
          rw [if_neg Bool.false_ne_true, hnil, List.nil_append]
        · have hall : (J a).filter q = J a :=
            List.filter_eq_self.mpr fun b hb => by rw [ha b hb, hk]
          rw [if_pos rfl, List.flatMap_cons, hall]

end Lists

namespace QueryExecutor

/-! ### Joins that return -/

section Join

variable {env : Env} {w : Database} {plan : QueryPlan} {c : String}
  {on : Doc → Doc → Except PyErr Bool} {left : Doc} {lefts rows : List Doc}

/-- The rows of one left document. -/
theorem matchRight_eq_ofList_iff {rights : Gen PyErr Doc} :
    matchRight on left rights = .ofList rows ↔ ∃ l keep, rights = .ofList l ∧
      (∀ right ∈ l, on left right = .ok (keep right)) ∧
      rows = (l.filter keep).map (mergeDocs left) := by
  rw [matchRight]
  constructor
  · intro h
    obtain ⟨l', hfilter, -⟩ := Gen.bind_eq_ofList_iff.mp h
    obtain ⟨l, rfl, keep, hkeep, rfl⟩ := Gen.filter_eq_ofList_iff.mp hfilter
    rw [hfilter, Gen.map_ok_ofList] at h
    exact ⟨l, keep, rfl, hkeep, (Gen.mk.inj h).1.symm⟩
  · rintro ⟨l, keep, rfl, hkeep, rfl⟩
    rw [Gen.filter_ofList hkeep, Gen.map_ok_ofList]

/-- The rows joined from a left document. -/
def joinedRows (env : Env) (w : Database) (c : String) (on : Doc → Doc → Except PyErr Bool)
    (left : Doc) : List Doc :=
  (matchRight on left (scanCollection env w c)).items

/-- The right collection can be read where this is done first. -/
def RightRead (env : Env) (w : Database) (plan : QueryPlan) (c : String) : Prop :=
  plan.joinStrategy = some .hashJoin → ∃ rights, scanCollection env w c = .ofList rights

/-- **A join** by either strategy: the rows of every left document. -/
theorem join_ofList_eq_iff : join env w (.ofList lefts) plan c on = .ofList rows ↔
    RightRead env w plan c ∧
      (∀ left ∈ lefts, matchRight on left (scanCollection env w c) =
        .ofList (joinedRows env w c on left)) ∧
      rows = lefts.flatMap (joinedRows env w c on) := by
  have hloop : ∀ rights : Gen PyErr Doc, rights = scanCollection env w c →
      (Gen.forEach (fun left => matchRight on left rights) lefts = .ofList rows ↔
        (∀ left ∈ lefts, matchRight on left (scanCollection env w c) =
          .ofList (joinedRows env w c on left)) ∧
        rows = lefts.flatMap (joinedRows env w c on)) := by
    rintro rights rfl
    constructor
    · intro h
      have hbody := Gen.forall_of_forEach_eq_ofList h
      rw [Gen.forEach_eq_ofList hbody] at h
      exact ⟨hbody, (Gen.mk.inj h).1.symm⟩
    · rintro ⟨hbody, rfl⟩
      exact Gen.forEach_eq_ofList hbody
  rw [join]
  split
  · rename_i hstrategy
    rw [hashJoin]
    rcases hread : (scanCollection env w c).toExcept with e | rights
    · constructor
      · nofun
      · rintro ⟨hright, -⟩
        obtain ⟨rights, hrights⟩ := hright hstrategy
        rw [hrights] at hread
        cases hread
    · have hrights := Gen.toExcept_eq_ok_iff.mp hread
      show (Gen.ofList lefts).bind (fun left => matchRight on left (.ofList rights)) = _ ↔ _
      rw [Gen.bind_ofList, hloop _ hrights.symm]
      exact ⟨fun h => ⟨fun _ => ⟨rights, hrights⟩, h⟩, fun h => h.2⟩
  · rename_i hstrategy
    rw [nestedLoopJoin, Gen.bind_ofList, hloop _ rfl]
    exact ⟨fun h => ⟨fun hhash => absurd hhash hstrategy, h⟩, fun h => h.2⟩

/-- A join that returns has read its left documents. -/
theorem exists_of_join_eq_ofList {docs : Gen PyErr Doc}
    (h : join env w docs plan c on = .ofList rows) : ∃ lefts, docs = .ofList lefts := by
  rw [join] at h
  split at h
  · rw [hashJoin] at h
    split at h
    · cases h
    · obtain ⟨lefts, hlefts, -⟩ := Gen.bind_eq_ofList_iff.mp h
      exact ⟨lefts, hlefts⟩
  · obtain ⟨lefts, hlefts, -⟩ := Gen.bind_eq_ofList_iff.mp h
    exact ⟨lefts, hlefts⟩

/-! ### One more predicate -/

theorem allHold_append (d : Doc) (ps : List Callable) (p : Callable) :
    allHold d (ps ++ [p]) = allHold d ps >>= fun b => if b then p.test d else .ok false := by
  induction ps with
  | nil =>
      show (p.test d >>= _) = _
      rcases p.test d with e | b
      · rfl
      · cases b <;> rfl
  | cons p' ps ih =>
      rw [List.cons_append, allHold, allHold, ih]
      rcases p'.test d with e | b
      · rfl
      · cases b <;> rfl

/-- The last predicate filters what the others leave. -/
theorem filterDocs_append {ps : List Callable} {docs : Gen PyErr Doc} (p : Callable)
    (h : filterDocs ps docs = .ofList lefts) :
    filterDocs (ps ++ [p]) docs = (Gen.ofList lefts).filter p.test := by
  obtain ⟨l, rfl, keep, hkeep, rfl⟩ := Gen.filter_eq_ofList_iff.mp h
  refine Gen.filter_filter_ofList fun d hd => ?_
  rw [allHold_append, hkeep d hd]
  rfl

/-- The rows a left document is joined to. -/
theorem mem_joinedRows {r : Doc} (h : matchRight on left (scanCollection env w c) =
      .ofList (joinedRows env w c on left)) : r ∈ joinedRows env w c on left ↔
    ∃ rights, scanCollection env w c = .ofList rights ∧
      ∃ right ∈ rights, on left right = .ok true ∧ r = mergeDocs left right := by
  obtain ⟨l, keep, hl, hkeep, hrows⟩ := matchRight_eq_ofList_iff.mp h
  rw [hrows, List.mem_map]
  constructor
  · rintro ⟨right, hright, rfl⟩
    obtain ⟨hmem, hright⟩ := List.mem_filter.mp hright
    exact ⟨l, hl, right, hmem, hright ▸ hkeep right hmem, rfl⟩
  · rintro ⟨rights, hrights, right, hmem, hon, rfl⟩
    obtain rfl : l = rights := (Gen.mk.inj (hl.symm.trans hrights)).1
    have htrue : keep right = true := Except.ok.inj ((hkeep right hmem).symm.trans hon)
    exact ⟨right, List.mem_filter.mpr ⟨hmem, htrue⟩, rfl⟩

/-- **Filtering left documents** yields the joined rows that satisfy the predicate
exactly where both agree. -/
theorem join_filter_iff {p : Callable} {keep : Doc → Bool}
    (hplain : join env w (.ofList lefts) plan c on = .ofList rows)
    (hkeep : ∀ r ∈ rows, p.test r = .ok (keep r)) :
    join env w ((Gen.ofList lefts).filter p.test) plan c on = .ofList (rows.filter keep) ↔
      ∀ left ∈ lefts, ∃ b, p.test left = .ok b ∧
        ∀ r ∈ joinedRows env w c on left, keep r = b := by
  obtain ⟨hright, hbody, rfl⟩ := join_ofList_eq_iff.mp hplain
  constructor
  · intro h
    obtain ⟨lefts', hfilter⟩ := exists_of_join_eq_ofList h
    obtain ⟨l, hl, early, hearly, rfl⟩ := Gen.filter_eq_ofList_iff.mp hfilter
    obtain rfl : lefts = l := (Gen.mk.inj hl).1
    rw [hfilter] at h
    obtain ⟨-, -, heq⟩ := join_ofList_eq_iff.mp h
    have hagree := flatMap_filter_iff.mp heq.symm
    exact fun left hleft => ⟨early left, hearly left hleft, hagree left hleft⟩
  · intro h
    -- what the predicate answers on the left documents
    let early : Doc → Bool := fun left => p.test left = .ok true
    have hearly : ∀ left ∈ lefts, p.test left = .ok (early left) ∧
        ∀ r ∈ joinedRows env w c on left, keep r = early left := by
      intro left hleft
      obtain ⟨b, hb, hagree⟩ := h left hleft
      have hbool : early left = b := by
        show decide (p.test left = .ok true) = b
        rw [hb]
        cases b <;> simp
      rw [hbool]
      exact ⟨hb, hagree⟩
    rw [Gen.filter_ofList fun left hleft => (hearly left hleft).1]
    refine join_ofList_eq_iff.mpr ⟨hright, fun left hleft => ?_, ?_⟩
    · exact hbody left (List.mem_filter.mp hleft).1
    · exact (flatMap_filter_iff.mpr fun left hleft => (hearly left hleft).2).symm

end Join

/-- A query of filters and a join. -/
theorem execute_join (env : Env) (w : Database) (plan : QueryPlan) (ps : List Callable) (c : String)
    (on : Doc → Doc → Except PyErr Bool) :
    execute env w plan { QuerySpec.empty with
        predicates := ps
        joinCollection := some c
        joinPredicate := some on } =
      join env w (filterDocs ps (scanDocs env w plan)) plan c on := by
  have hslice := slice_ofNat (join env w (filterDocs ps (scanDocs env w plan)) plan c on) 0 none
  exact hslice

end QueryExecutor

/-! ### The builder -/

open QueryExecutor

/-- The predicate is not the first, or the planner makes nothing of it. -/
def AddsNoIndex (indexedFields : List String) (ps : List Callable) (p : Callable) : Prop :=
  ps ≠ [] ∨ parsePredicate p indexedFields = .ok .fail

/-- Such a predicate leaves the plan as it is, but for the number of predicates. -/
theorem QueryPlanner.plan_append {planner : QueryPlanner} {collection : String}
    {ps : List Callable} {p : Callable} {joinCollection : Option String} {size : ℕ}
    {hasOrderBy hasLimit hasProjection hasAggregation : Bool} {plan : QueryPlan}
    (hscan : AddsNoIndex planner.indexedFields ps p)
    (h : planner.plan collection ps joinCollection size hasOrderBy hasLimit hasProjection
      hasAggregation = .ok plan) :
    planner.plan collection (ps ++ [p]) joinCollection size hasOrderBy hasLimit hasProjection
      hasAggregation = .ok { plan with predicateCount := ps.length + 1 } := by
  cases ps with
  | nil =>
      have hparse := hscan.resolve_left fun hne => hne rfl
      cases h
      refine bind_eq_ok_iff.mpr ⟨_, hparse, rfl⟩
  | cons fn ps =>
      obtain ⟨access, haccess, h⟩ := bind_eq_ok_iff.mp h
      cases h
      refine bind_eq_ok_iff.mpr ⟨access, haccess, ?_⟩
      rw [List.length_append]
      rfl

/-- The predicate returns on every left document, and answers on it what it answers on
every row joined from it. -/
def AnswersBefore (env : Env) (w : Database) (c : String) (on : Doc → Doc → Except PyErr Bool)
    (p : Callable) (keep : Doc → Bool) (lefts : List Doc) : Prop :=
  ∀ left ∈ lefts, ∃ b, p.test left = .ok b ∧
    ∀ rights, scanCollection env w c = .ofList rights → ∀ right ∈ rights,
      on left right = .ok true → keep (mergeDocs left right) = b

/-- **A predicate after a join** that adds no index to the plan filters the rows of the
plain join exactly when it answers on every left document, and answers the same on every
row joined from it. -/
theorem where_after_join_iff (env : Env) (w : Database) (q : QueryBuilder) (ps : List Callable)
    (hq : q.spec = { QuerySpec.empty with predicates := ps }) (c : String)
    (on : Doc → Doc → Except PyErr Bool) (size : ℕ) (p : Callable) (plan : QueryPlan)
    (hplan : (q.join c on size).buildPlan = .ok plan) (rows : List Doc)
    (hplain : (q.join c on size).toList env w = .ok rows)
    (keep : Doc → Bool) (hkeep : ∀ r ∈ rows, p.test r = .ok (keep r)) :
    let lefts := (filterDocs ps (scanDocs env w plan)).items
    (AddsNoIndex q.indexedFields ps p ∧ AnswersBefore env w c on p keep lefts →
      ((q.join c on size).where_ p).toList env w = .ok (rows.filter keep)) ∧
    (((q.join c on size).where_ p).toList env w = .ok (rows.filter keep) →
      AddsNoIndex q.indexedFields ps p → AnswersBefore env w c on p keep lefts) := by
  intro lefts
  have hiff : AddsNoIndex q.indexedFields ps p →
      (((q.join c on size).where_ p).toList env w = .ok (rows.filter keep) ↔
        AnswersBefore env w c on p keep lefts) := by
    intro hscan
    obtain ⟨collection, indexedFields, collectionSize, threshold, joinSize, spec⟩ := q
    obtain rfl : spec = _ := hq
    have hjoin : join env w (filterDocs ps (scanDocs env w plan)) plan c on = .ofList rows := by
      rw [← execute_join]
      refine Gen.toExcept_eq_ok_iff.mp ?_
      rw [QueryBuilder.toList, hplan, ok_bind] at hplain
      exact hplain
    obtain ⟨docs, hdocs⟩ := exists_of_join_eq_ofList hjoin
    have hlefts : lefts = docs := by
      show (filterDocs ps (scanDocs env w plan)).items = docs
      rw [hdocs, Gen.items_ofList]
    -- the plan with the predicate reads the same documents and joins the same way
    have hbuild := @QueryPlanner.plan_append ⟨indexedFields, collectionSize, threshold⟩ collection
      ps p (some c) size false false false false plan hscan hplan
    have hplan' : ((QueryBuilder.join ⟨collection, indexedFields, collectionSize, threshold,
        joinSize, { QuerySpec.empty with predicates := ps }⟩ c on size).where_ p).buildPlan =
        .ok { plan with predicateCount := ps.length + 1 } := hbuild
    have hrun : ((QueryBuilder.join ⟨collection, indexedFields, collectionSize, threshold,
        joinSize, { QuerySpec.empty with predicates := ps }⟩ c on size).where_ p).toList env w =
        (join env w ((Gen.ofList docs).filter p.test) plan c on).toExcept := by
      rw [QueryBuilder.toList, hplan', ok_bind, ← filterDocs_append p hdocs]
      exact congrArg _ (execute_join env w { plan with predicateCount := ps.length + 1 }
        (ps ++ [p]) c on)
    rw [hdocs] at hjoin
    rw [hrun, Gen.toExcept_eq_ok_iff, join_filter_iff hjoin hkeep, hlefts]
    obtain ⟨-, hbody, -⟩ := join_ofList_eq_iff.mp hjoin
    refine forall₂_congr fun left hleft => exists_congr fun b => and_congr_right fun _ => ?_
    constructor
    · intro h rights hrights right hright hon
      exact h _ ((mem_joinedRows (hbody left hleft)).mpr
        ⟨rights, hrights, right, hright, hon, rfl⟩)
    · intro h r hr
      obtain ⟨rights, hrights, right, hright, hon, rfl⟩ :=
        (mem_joinedRows (hbody left hleft)).mp hr
      exact h rights hrights right hright hon
  exact ⟨fun h => (hiff h.1).mpr h.2, fun h hscan => (hiff hscan).mp h⟩

/-! ### Customers and orders -/

section Shop

/-- Two customers, each with an order. -/
def ordersDb : Database :=
  (do
    StorageEngine.createCollection "customers" [] false
    StorageEngine.createCollection "orders" [] false
    performAll
      [.write (.insert "customers" "c1" (OrdDict.ofList [("name", .str "Ann")])),
        .write (.insert "customers" "c2" (OrdDict.ofList [("name", .str "Bob")])),
        .write (.insert "orders" "o1"
          (OrdDict.ofList [("customer_id", .str "c1"), ("total", .int 150)])),
        .write (.insert "orders" "o2"
          (OrdDict.ofList [("customer_id", .str "c2"), ("total", .int 50)]))]).exec
    onlyClient emptyDb

/-- `lambda c, o: c["_id"] == o["customer_id"]`. -/
def ownOrder (left right : Doc) : Except PyErr Bool :=
  match left.get? "_id", right.get? "customer_id" with
  | some v, some w => .ok (v.eq w)
  | none, _ => .error (.keyError "_id")
  | _, none => .error (.keyError "customer_id")

/-- The customers with their orders. -/
def customerOrders : QueryBuilder :=
  (QueryBuilder.ofCollection "customers" [] 2 10000).join "orders" ownOrder 2

/-- A predicate on the name, which only customers have. -/
theorem where_after_join_iff_name :
    let named : Callable := ⟨none, fun r => .ok (r.get "name" = .str "Ann")⟩
    ∃ rows, customerOrders.toList onlyClient ordersDb = .ok rows ∧ rows.length = 2 ∧
      (customerOrders.where_ named).toList onlyClient ordersDb =
        .ok (rows.filter fun r => r.get "name" = .str "Ann") := by
  intro named
  let ann : Doc := OrdDict.ofList [("name", .str "Ann"), ("_id", .str "c1")]
  let bob : Doc := OrdDict.ofList [("name", .str "Bob"), ("_id", .str "c2")]
  let order₁ : Doc :=
    OrdDict.ofList [("customer_id", .str "c1"), ("total", .int 150), ("_id", .str "o1")]
  let order₂ : Doc :=
    OrdDict.ofList [("customer_id", .str "c2"), ("total", .int 50), ("_id", .str "o2")]
  let plan : QueryPlan := ⟨"customers", .fullScan, none, .none, .none, .none, 0, some .hashJoin,
    some "orders", false, false, false, false⟩
  have hrows : customerOrders.toList onlyClient ordersDb =
      .ok [mergeDocs ann order₁, mergeDocs bob order₂] := by decide +kernel
  have hlefts : (filterDocs [] (scanDocs onlyClient ordersDb plan)).items = [ann, bob] := by
    decide +kernel
  have hrights : (scanCollection onlyClient ordersDb "orders").toExcept = .ok [order₁, order₂] := by
    decide +kernel
  obtain ⟨hfilters, -⟩ := where_after_join_iff onlyClient ordersDb
    (QueryBuilder.ofCollection "customers" [] 2 10000) [] rfl "orders" ownOrder 2 named plan rfl
    _ hrows (fun r => r.get "name" = .str "Ann") fun _ _ => rfl
  refine ⟨_, hrows, rfl, hfilters ⟨Or.inr rfl, ?_⟩⟩
  rw [hlefts]
  intro left hleft
  refine ⟨_, rfl, fun rights h right hright _ => ?_⟩
  obtain rfl : rights = [order₁, order₂] :=
    Except.ok.inj ((congrArg Gen.toExcept h).symm.trans hrights)
  rcases List.mem_pair.mp hleft with rfl | rfl <;> rcases List.mem_pair.mp hright with rfl | rfl
  all_goals rfl

/-- **A predicate on the total**, which only orders have, raises where it should
filter. -/
theorem where_after_join_total :
    let over100 : Callable := (Lambda.mk ["r"]
      (.compare (.subscript (.name "r") (.constant (.str "total")))
        [(.order .gt, .constant (.int 100))]) fun id => .error (.keyError id)).toCallable
    let row : Doc := OrdDict.ofList
      [("name", .str "Ann"), ("_id", .str "o1"), ("customer_id", .str "c1"), ("total", .int 150)]
    (∃ rest, customerOrders.toList onlyClient ordersDb = .ok (row :: rest)) ∧
      over100.test row = .ok true ∧
      (customerOrders.where_ over100).toList onlyClient ordersDb = .error (.keyError "total") := by
  intro over100 row
  refine ⟨⟨[OrdDict.ofList [("name", .str "Bob"), ("_id", .str "o2"), ("customer_id", .str "c2"),
    ("total", .int 50)]], by decide +kernel⟩, rfl, by decide +kernel⟩

/-- **The same predicate on the name, where names are indexed.**  The customers are read
through the index, and the join does not find their `_id`. -/
theorem where_after_join_indexed :
    let db : Database := (do
      StorageEngine.createCollection "customers" [⟨["name"], false⟩] false
      StorageEngine.createCollection "orders" [] false
      performAll
        [.write (.insert "customers" "c1" (OrdDict.ofList [("name", .str "Ann")])),
          .write (.insert "orders" "o1"
            (OrdDict.ofList [("customer_id", .str "c1"), ("total", .int 150)]))]).exec
      onlyClient emptyDb
    let query := (QueryBuilder.ofCollection "customers" ["name"] 1 10000).join "orders" ownOrder 1
    let named : Callable := (Lambda.mk ["r"]
      (.compare (.subscript (.name "r") (.constant (.str "name")))
        [(.eq, .constant (.str "Ann"))]) fun id => .error (.keyError id)).toCallable
    let row : Doc := OrdDict.ofList
      [("name", .str "Ann"), ("_id", .str "o1"), ("customer_id", .str "c1"), ("total", .int 150)]
    query.toList onlyClient db = .ok [row] ∧ named.test row = .ok true ∧
      (query.where_ named).toList onlyClient db = .error (.keyError "_id") := by
  intro db query named row
  exact ⟨by decide +kernel, rfl, by decide +kernel⟩

end Shop

end JsonpySql
