/-
JsonpySql/Paging.lean

Skip and limit.

The slicing loop tests the limit after it has yielded a document, so it never
yields fewer than one where there is one to yield: a limit of zero is taken for
a limit of one (`slice_ofNat`), and every other window is exact
(`slice_window_iff`).  Pages of a fixed size are such windows, and together they
are the whole result (`pages_partition`).
-/
import JsonpySql.Pipeline

namespace JsonpySql

namespace QueryExecutor

section Slice

variable {α : Type} {skip : ℤ} {limit : Option ℤ} {error : Option PyErr}

/-- Skipping drops documents. -/
theorem sliceFrom_skip (count : ℤ) {skipped : ℤ} (h : skipped ≤ skip) (docs : List α) :
    sliceFrom skip limit error count skipped docs =
      sliceFrom skip limit error count skip (docs.drop (skip - skipped).toNat) := by
  induction docs generalizing skipped with
  | nil => simp [sliceFrom]
  | cons doc docs ih =>
      rcases eq_or_lt_of_le h with rfl | hlt
      · simp
      · have hdrop : (skip - skipped).toNat = (skip - (skipped + 1)).toNat + 1 := by omega
        rw [sliceFrom, if_pos hlt, ih (by omega), hdrop, List.drop_succ_cons]

theorem sliceFrom_none (count : ℤ) (docs : List α) :
    sliceFrom skip none error count skip docs = ⟨docs, error⟩ := by
  induction docs generalizing count with
  | nil => rfl
  | cons doc docs ih =>
      rw [sliceFrom, if_neg (lt_irrefl skip), if_neg (by simp), ih]
      rfl

/-- A limit takes documents, one at least. -/
theorem sliceFrom_some (n count : ℤ) (docs : List α) :
    sliceFrom skip (some n) error count skip docs =
      ⟨docs.take (max 1 (n - count).toNat),
        if docs.length < max 1 (n - count).toNat then error else none⟩ := by
  induction docs generalizing count with
  | nil => simp [sliceFrom]
  | cons doc docs ih =>
      rw [sliceFrom, if_neg (lt_irrefl skip)]
      by_cases hlast : n ≤ count + 1
      · have hmax : max 1 (n - count).toNat = 1 := by omega
        rw [if_pos (by simpa using hlast), hmax]
        simp
      · have hmax : max 1 (n - count).toNat = max 1 (n - (count + 1)).toNat + 1 := by omega
        rw [if_neg (by simpa using hlast), ih, hmax]
        simp [Gen.append]

/-- **The loop** yields a window of the documents; a limit of zero counts as one. -/
theorem slice_ofNat (docs : Gen PyErr α) (s : ℕ) (limit : Option ℕ) :
    slice docs s (limit.map Nat.cast) =
      match limit with
      | none => ⟨docs.items.drop s, docs.error⟩
      | some n => ⟨(docs.items.drop s).take (max 1 n),
          if (docs.items.drop s).length < max 1 n then docs.error else none⟩ := by
  have hs : (s - 0 : ℤ).toNat = s := by omega
  rw [slice, sliceFrom_skip 0 (by omega), hs]
  cases limit with
  | none => exact sliceFrom_none 0 _
  | some n =>
      have hn : (n - 0 : ℤ).toNat = n := by omega
      exact (sliceFrom_some n 0 _).trans (by rw [hn])

theorem slice_some (docs : Gen PyErr α) (s : ℕ) {n : ℕ} (hn : 1 ≤ n) :
    slice docs s (some (n : ℤ)) = ⟨(docs.items.drop s).take n,
      if (docs.items.drop s).length < n then docs.error else none⟩ := by
  have h := slice_ofNat docs s (some n)
  simp only [Nat.max_eq_right hn] at h
  exact h

end Slice

/-- The rows at the positions from `s` on, no more than the limit. -/
def window {α : Type} (s : ℕ) (limit : Option ℕ) (docs : List α) : List α :=
  match limit with
  | none => docs.drop s
  | some n => (docs.drop s).take n

/-- **A window is exact**, and a limit is one, unless the limit is zero and there
is a row to yield. -/
theorem slice_window_iff {α : Type} (docs : Gen PyErr α) (s : ℕ) (limit : Option ℕ) :
    ((slice docs s (limit.map Nat.cast)).items = window s limit docs.items ∧
        ∀ n, limit = some n → (slice docs s (limit.map Nat.cast)).items.length ≤ n) ↔
      limit ≠ some 0 ∨ docs.items.length ≤ s := by
  rw [slice_ofNat]
  cases limit with
  | none => simp [window]
  | some n =>
      simp only [window, Option.some.injEq, forall_eq']
      rcases Nat.eq_zero_or_pos n with rfl | hn
      · -- a document was yielded if one was there
        constructor
        · rintro ⟨-, hlength⟩
          right
          simpa [Nat.sub_eq_zero_iff_le] using hlength
        · rintro (h | h)
          · exact absurd rfl h
          · rw [List.drop_eq_nil_of_le h]
            simp
      · rw [Nat.max_eq_right hn]
        have hne : n ≠ 0 := by omega
        simp [hne]

/-- A limit of zero yields a row. -/
theorem slice_limit_zero :
    let row : Doc := OrdDict.ofList [("id", .str "1")]
    (slice (.ofList [row]) 0 (some 0)).items = [row] ∧ window 0 (some 0) [row] = [] := ⟨rfl, rfl⟩

/-! ### The stages around the slice -/

/-- The rows before they are sliced. -/
def orderedDocs (env : Env) (w : Database) (plan : QueryPlan) (spec : QuerySpec) : Gen PyErr Doc :=
  let docs := joinedDocs env w plan spec
  if !spec.aggregates.entries.isEmpty then
    .ofExcept do
      let results ← applyAggregates (← docs.toExcept) spec.groupFields spec.aggregates
      match spec.orderByField with
      | some field => sortDocs field spec.orderDescending results
      | none => return results
  else
    match spec.orderByField with
    | some field => sort docs field spec.orderDescending
    | none => docs

/-- The sliced rows, projected unless they are aggregates. -/
def projectDocs (spec : QuerySpec) (docs : Gen PyErr Doc) : Gen PyErr Doc :=
  if !spec.aggregates.entries.isEmpty then docs
  else
    match spec.projection with
    | some projection => docs.map projection
    | none => docs

theorem execute_eq (env : Env) (w : Database) (plan : QueryPlan) (spec : QuerySpec) :
    execute env w plan spec =
      projectDocs spec (slice (orderedDocs env w plan spec) spec.skip spec.limit) := by
  rw [execute, projectDocs, orderedDocs]
  split
  · rfl
  · rfl

/-- **A query of filters alone** is a scan with its predicates. -/
theorem toExcept_execute_predicates (env : Env) (w : Database) (plan : QueryPlan)
    (ps : List Callable) :
    (execute env w plan { QuerySpec.empty with predicates := ps }).toExcept =
      ((scanWhere plan ps).value env w).map (List.map Row.doc) := by
  have hexecute : execute env w plan { QuerySpec.empty with predicates := ps } =
      filterDocs ps (scanDocs env w plan) :=
    slice_ofNat (filterDocs ps (scanDocs env w plan)) 0 none
  rw [hexecute, scanDocs, scanWhere]
  rcases hscan : (scan plan).value env w with e | rows
  · rw [Prog.value_bind_error hscan]
    rfl
  · rw [Prog.value_bind_ok hscan]
    refine (toExcept_filterDocs ps rows).trans ?_
    rcases applyPredicates ps rows with e | rows'
    · rfl
    · rfl

/-- A projection that returns maps every window of the rows to the same window. -/
theorem projectDocs_window {spec : QuerySpec} {docs : Gen PyErr Doc} {rows : List Doc}
    (h : projectDocs spec docs = .ofList rows) : ∃ l, docs = .ofList l ∧
      l.length = rows.length ∧ ∀ s n, projectDocs spec (.ofList ((l.drop s).take n)) =
        .ofList ((rows.drop s).take n) := by
  unfold projectDocs at h ⊢
  rcases haggregates : !spec.aggregates.entries.isEmpty with _ | _
  · rw [haggregates, if_neg Bool.false_ne_true] at h
    simp only [Bool.false_eq_true, if_false]
    rcases hprojection : spec.projection with _ | projection
    · rw [hprojection] at h
      exact ⟨rows, h, rfl, fun s n => rfl⟩
    · rw [hprojection] at h
      obtain ⟨l, rfl, -⟩ := Gen.bind_eq_ofList_iff.mp h
      have hmap := Gen.map_ofList_eq_iff.mp h
      exact ⟨l, rfl, hmap.length_eq, fun s n => Gen.map_ofList_eq_iff.mpr
        (List.forall₂_take n (List.forall₂_drop s hmap))⟩
  · rw [haggregates, if_pos rfl] at h
    exact ⟨rows, h, rfl, fun s n => rfl⟩

end QueryExecutor

/-! ### Pages -/

section Pages

variable {α : Type}

/-- The rows of some pages are an initial part of the list. -/
theorem flatMap_pages (l : List α) (n K : ℕ) :
    ((List.range K).flatMap fun k => (l.drop (k * n)).take n) = l.take (K * n) := by
  induction K with
  | zero => simp
  | succ K ih =>
      rw [List.range_succ, List.flatMap_append, ih, Nat.succ_mul, List.take_add]
      simp

/-- **Pages** of a list: nonempty ones, of the full size but for the last, and
then an empty one. -/
theorem exists_pages (l : List α) {n : ℕ} (hn : 1 ≤ n) : ∃ K,
    (l.drop (K * n)).take n = [] ∧ (∀ k < K, (l.drop (k * n)).take n ≠ []) ∧
      ((List.range K).flatMap fun k => (l.drop (k * n)).take n) = l ∧
      ∀ k, k + 1 < K → ((l.drop (k * n)).take n).length = n := by
  -- `K` is the first number of pages that holds the list
  have hex : ∃ K, l.length ≤ K * n := ⟨l.length, Nat.le_mul_of_pos_right _ hn⟩
  refine ⟨Nat.find hex, ?_, fun k hk => ?_, ?_, fun k hk => ?_⟩
  · rw [List.drop_eq_nil_of_le (Nat.find_spec hex), List.take_nil]
  · have hlt := Nat.lt_of_not_le (Nat.find_min hex hk)
    intro hnil
    have hlength := congrArg List.length hnil
    rw [List.length_take, List.length_drop, List.length_nil] at hlength
    omega
  · rw [flatMap_pages, List.take_of_length_le (Nat.find_spec hex)]
  · have hlt := Nat.lt_of_not_le (Nat.find_min hex hk)
    rw [Nat.succ_mul] at hlt
    rw [List.length_take, List.length_drop]
    omega

end Pages

/-- Whether there is a limit is only marked in a plan. -/
theorem QueryPlanner.plan_hasLimit (planner : QueryPlanner) (collection : String)
    (predicates : List Callable) (joinCollection : Option String) (size : ℕ)
    (hasOrderBy hasLimit hasLimit' hasProjection hasAggregation : Bool) :
    planner.plan collection predicates joinCollection size hasOrderBy hasLimit hasProjection
        hasAggregation =
      (planner.plan collection predicates joinCollection size hasOrderBy hasLimit' hasProjection
        hasAggregation).map fun plan => { plan with hasLimit := hasLimit } := by
  cases predicates with
  | nil => rfl
  | cons fn predicates =>
      show (parsePredicate fn planner.indexedFields >>= _) =
        (parsePredicate fn planner.indexedFields >>= _).map _
      cases parsePredicate fn planner.indexedFields with
      | error e => rfl
      | ok access => rfl

namespace QueryBuilder

variable {env : Env} {w : Database} {q : QueryBuilder}

/-- A page is a window of the rows. -/
theorem toList_page (hskip : q.spec.skip = 0) (hlimit : q.spec.limit = none) {rows : List Doc}
    (h : q.toList env w = .ok rows) (s : ℕ) {n : ℕ} (hn : 1 ≤ n) :
    ((q.skip s).limit n).toList env w = .ok ((rows.drop s).take n) := by
  obtain ⟨plan, hplan, h⟩ := bind_eq_ok_iff.mp h
  have hpage : ((q.skip s).limit n).buildPlan = .ok { plan with hasLimit := true } := by
    refine (QueryPlanner.plan_hasLimit _ _ _ _ _ _ true q.spec.limit.isSome _ _).trans ?_
    exact congrArg _ hplan
  have hzero := QueryExecutor.slice_ofNat
    (QueryExecutor.orderedDocs env w plan q.spec) 0 none
  rw [Gen.toExcept_eq_ok_iff, QueryExecutor.execute_eq, hskip, hlimit] at h
  obtain ⟨l, hl, -, hwindow⟩ := QueryExecutor.projectDocs_window h
  have hrows : QueryExecutor.orderedDocs env w plan q.spec = .ofList l := hzero.symm.trans hl
  have hslice : QueryExecutor.slice (.ofList l : Gen PyErr Doc) s (some (n : ℤ)) =
      .ofList ((l.drop s).take n) := by
    rw [QueryExecutor.slice_some _ s hn]
    exact congrArg (Gen.mk _) (ite_self none)
  rw [toList, hpage, ok_bind, Gen.toExcept_eq_ok_iff, QueryExecutor.execute_eq]
  show QueryExecutor.projectDocs q.spec
    (QueryExecutor.slice (QueryExecutor.orderedDocs env w plan q.spec) s (some n)) = _
  rw [hrows]
  exact (congrArg _ hslice).trans (hwindow s n)

/-- **A limit bounds the rows** unless it is zero. -/
theorem length_toList_limit (hskip : 0 ≤ q.spec.skip) {n : ℕ} (hn : 1 ≤ n) {rows : List Doc}
    (h : (q.limit n).toList env w = .ok rows) : rows.length ≤ n := by
  obtain ⟨s, hs⟩ := Int.eq_ofNat_of_zero_le hskip
  obtain ⟨plan, -, h⟩ := bind_eq_ok_iff.mp h
  rw [Gen.toExcept_eq_ok_iff, QueryExecutor.execute_eq] at h
  obtain ⟨l, hl, hlength, -⟩ := QueryExecutor.projectDocs_window h
  have hslice := QueryExecutor.slice_some
    (QueryExecutor.orderedDocs env w plan (q.limit n).spec) s hn
  have hskip' : (q.limit n).spec.skip = s := hs
  rw [hskip'] at hl
  have hitems : List.take n _ = l := congrArg Gen.items (hslice.symm.trans hl)
  rw [← hlength, ← hitems]
  exact List.length_take_le n _

/-- **Pages partition a result.**  The pages of a query that returns are nonempty
up to a first empty one, and have the full size up to the last nonempty one; one
after the other they are the rows of the query. -/
theorem pages_partition (env : Env) (w : Database) (q : QueryBuilder) (hskip : q.spec.skip = 0)
    (hlimit : q.spec.limit = none) (rows : List Doc) (h : q.toList env w = .ok rows) (n : ℕ)
    (hn : 1 ≤ n) : ∃ pages : ℕ → List Doc,
      (∀ k : ℕ, ((q.skip (k * n)).limit n).toList env w = .ok (pages k)) ∧
      ∃ K, pages K = [] ∧ (∀ k < K, pages k ≠ []) ∧ (List.range K).flatMap pages = rows ∧
        ∀ k, k + 1 < K → (pages k).length = n := by
  refine ⟨fun k => (rows.drop (k * n)).take n, fun k => ?_, exists_pages rows hn⟩
  exact_mod_cast toList_page hskip hlimit h (k * n) hn

/-- Three users, two of the same age, in pages of two. -/
theorem pages_partition_users :
    let user (docId : String) (age : ℤ) : EngineOp :=
      .write (.insert "users" docId (OrdDict.ofList [("age", .int age)]))
    let w := (performAll [user "1" 30, user "2" 40, user "3" 30]).exec onlyClient usersDb
    let q := (ofCollection "users" [] 3 10000).orderBy "age" true
    let row (docId : String) (age : ℤ) : Doc :=
      OrdDict.ofList [("age", .int age), ("_id", .str docId)]
    ∃ pages : ℕ → List Doc,
      (∀ k : ℕ, ((q.skip (k * (2 : ℕ))).limit (2 : ℕ)).toList onlyClient w = .ok (pages k)) ∧
      ∃ K, pages K = [] ∧ (∀ k < K, pages k ≠ []) ∧
        (List.range K).flatMap pages = [row "2" 40, row "1" 30, row "3" 30] ∧
        ∀ k, k + 1 < K → (pages k).length = 2 := by
  intro user w q row
  have hrows : q.toList onlyClient w = .ok [row "2" 40, row "1" 30, row "3" 30] := by
    decide +kernel
  exact pages_partition onlyClient w q rfl rfl _ hrows 2 (by decide)

end QueryBuilder

end JsonpySql
