/-
JsonpySql/RollUp.lean

Grouping by fewer fields, and documents in another order.

A group by some fields is made of groups by more fields, and an aggregate of it
comes from theirs: counts and sums add up, and the outermost value is outermost
among theirs, where a group without values has none (`AggSpec.rollsUp`).  The
order of the documents is the order of the rows, and nothing else
(`applyAggregates_rollUp`).
-/
import Mathlib.Algebra.BigOperators.Group.List.Basic
import Mathlib.Algebra.BigOperators.Ring.Finset
import JsonpySql.Grouping

/-! ### The order of plain values -/

theorem OrderOp.holds_antisymm {α : Type*} [LinearOrder α] {op : OrderOp}
    (hop : op = .le ∨ op = .ge) {a b : α} (hab : op.holds a b = true) (hba : op.holds b a = true) :
    a = b := by
  rcases hop with rfl | rfl
  · exact le_antisymm (of_decide_eq_true hab) (of_decide_eq_true hba)
  · exact le_antisymm (of_decide_eq_true hba) (of_decide_eq_true hab)

/-- Plain values that are at most each other are the same. -/
theorem PyVal.order_antisymm {op : OrderOp} (hop : op = .le ∨ op = .ge) {v w : PyVal}
    (hv : v.isPlain = true) (hw : w.isPlain = true) (hvw : v.order op w = .ok true)
    (hwv : w.order op v = .ok true) : v = w := by
  rcases isPlain_iff.mp hv with rfl | ⟨m, rfl⟩ | ⟨s, rfl⟩
  · rcases isPlain_iff.mp hw with rfl | ⟨n, rfl⟩ | ⟨t, rfl⟩ <;> cases hvw
  · rcases isPlain_iff.mp hw with rfl | ⟨n, rfl⟩ | ⟨t, rfl⟩
    · cases hvw
    · rw [order_int, Except.ok.injEq] at hvw hwv
      rw [OrderOp.holds_antisymm hop hvw hwv]
    · cases hvw
  · rcases isPlain_iff.mp hw with rfl | ⟨n, rfl⟩ | ⟨t, rfl⟩
    · cases hvw
    · cases hvw
    · rw [order_str, Except.ok.injEq] at hvw hwv
      rw [OrderOp.holds_antisymm hop hvw hwv]

namespace JsonpySql

/-! ### Outermost values -/

section Extremum

variable {op : OrderOp} {values values' : List PyVal} {v v' : PyVal}

/-- By the values that are there. -/
theorem isExtremum_iff : IsExtremum op values v ↔
    (v = .none ∧ ∀ w ∈ values, w = .none) ∨
      v ≠ .none ∧ v ∈ values ∧ ∀ w ∈ values, w ≠ .none → v.order op w = .ok true := by
  have hmem : ∀ w, w ∈ nonNull values ↔ w ∈ values ∧ w ≠ .none := by
    simp [nonNull]
  rw [IsExtremum]
  split
  · next hnil =>
    have hall : ∀ w ∈ values, w = .none := by
      intro w hw
      by_contra hne
      exact List.not_mem_nil (hnil ▸ (hmem w).mpr ⟨hw, hne⟩)
    constructor
    · exact fun hv => Or.inl ⟨hv, hall⟩
    · rintro (⟨hv, -⟩ | ⟨hv, hmem, -⟩)
      · exact hv
      · exact hall v hmem
  · next hne =>
    simp only [hmem]
    constructor
    · rintro ⟨⟨hv, hnone⟩, hall⟩
      exact Or.inr ⟨hnone, hv, fun w hw hw' => hall w ⟨hw, hw'⟩⟩
    · rintro (⟨-, hall⟩ | ⟨hnone, hv, hall⟩)
      · obtain ⟨w, hw⟩ := List.exists_mem_of_ne_nil _ hne
        exact absurd (hall w ((hmem w).mp hw).1) ((hmem w).mp hw).2
      · exact ⟨⟨hv, hnone⟩, fun w hw => hall w hw.1 hw.2⟩

/-- The order of the values does not matter. -/
theorem IsExtremum.perm (h : IsExtremum op values v) (hperm : values.Perm values') :
    IsExtremum op values' v := by
  rw [isExtremum_iff] at h ⊢
  simp only [hperm.mem_iff] at h
  exact h

/-- There is one outermost value. -/
theorem IsExtremum.unique (hop : op = .le ∨ op = .ge) (hplain : ∀ v ∈ values, v.isPlain = true)
    (h : IsExtremum op values v) (h' : IsExtremum op values v') : v = v' := by
  rcases isExtremum_iff.mp h with ⟨hv, hall⟩ | ⟨hne, hv, hall⟩
  · rcases isExtremum_iff.mp h' with ⟨hv', -⟩ | ⟨hne', hv', -⟩
    · rw [hv, hv']
    · exact absurd (hall v' hv') hne'
  · rcases isExtremum_iff.mp h' with ⟨-, hall'⟩ | ⟨hne', hv', hall'⟩
    · exact absurd (hall' v hv) hne
    · exact PyVal.order_antisymm hop (hplain v hv) (hplain v' hv') (hall v' hv' hne')
        (hall' v hv hne)

/-- **The outermost value of all** is outermost among those of the parts. -/
theorem IsExtremum.rollUp (hop : op = .le ∨ op = .ge) {parts : List (List PyVal)}
    {outermost : List PyVal} (hplain : ∀ w ∈ parts.flatten, w.isPlain = true)
    (hparts : List.Forall₂ (IsExtremum op) parts outermost) (h : IsExtremum op parts.flatten v) :
    IsExtremum op outermost v := by
  have hpart : ∀ u ∈ outermost, ∃ part ∈ parts, IsExtremum op part u := fun u hu =>
    exists_of_forall₂ hparts.flip hu
  rw [isExtremum_iff]
  rcases isExtremum_iff.mp h with ⟨hv, hall⟩ | ⟨hne, hv, hall⟩
  -- no part has a value
  · refine Or.inl ⟨hv, fun u hu => ?_⟩
    obtain ⟨part, hpart, hu⟩ := hpart u hu
    rcases isExtremum_iff.mp hu with ⟨hu, -⟩ | ⟨-, hu, -⟩
    · exact hu
    · exact hall u (List.mem_flatten_of_mem hpart hu)
  · obtain ⟨part, hmem, hv'⟩ := List.mem_flatten.mp hv
    obtain ⟨u, hu, hextremum⟩ := exists_of_forall₂ hparts hmem
    refine Or.inr ⟨hne, ?_, fun u hu hu' => ?_⟩
    -- it is the outermost value of the part it is in
    · rcases isExtremum_iff.mp hextremum with ⟨-, hall'⟩ | ⟨hu', humem, hall'⟩
      · exact absurd (hall' v hv') hne
      · have huflat := List.mem_flatten_of_mem hmem humem
        have heq := PyVal.order_antisymm hop (hplain v hv) (hplain u huflat) (hall u huflat hu')
          (hall' v hv' hne)
        exact heq ▸ hu
    · obtain ⟨part', hmem', hu''⟩ := hpart u hu
      rcases isExtremum_iff.mp hu'' with ⟨hnone, -⟩ | ⟨-, humem, -⟩
      · exact absurd hnone hu'
      · exact hall u (List.mem_flatten_of_mem hmem' humem) hu'

end Extremum

/-! ### Aggregates of the parts -/

/-- How the aggregate of all documents comes from those of the parts. -/
def AggSpec.RollsUp (values : List PyVal) (v : PyVal) : AggSpec → Prop
  | .countAgg | .sumAgg _ => ∃ ns : List ℤ, values = ns.map PyVal.int ∧ v = .int ns.sum
  | .avgAgg _ => True
  | .minAgg _ => IsExtremum .le values v
  | .maxAgg _ => IsExtremum .ge values v

section Parts

variable {spec : AggSpec} {field : String} {docs docs' : List Doc} {v : PyVal}

theorem isPlain_of_oneKind {values : List PyVal}
    (h : (∀ v ∈ values, v.isIntOrNone = true) ∨ ∀ v ∈ values, v.isStrOrNone = true) :
    ∀ v ∈ values, v.isPlain = true := by
  intro v hv
  rw [PyVal.isPlain, Bool.or_eq_true]
  exact h.imp (fun h => h v hv) fun h => h v hv

theorem isPlain_field
    (h : (∀ d ∈ docs, (d.get field).isIntOrNone = true) ∨
      ∀ d ∈ docs, (d.get field).isStrOrNone = true) :
    ∀ v ∈ docs.map fun d => d.get field, v.isPlain = true :=
  isPlain_of_oneKind (h.imp List.forall_mem_map.mpr List.forall_mem_map.mpr)

theorem isExtremum_rollUp {op : OrderOp} (hop : op = .le ∨ op = .ge) {parts : List (List Doc)}
    {values : List PyVal} (hperm : parts.flatten.Perm docs)
    (hkind : (∀ d ∈ docs, (d.get field).isIntOrNone = true) ∨
      ∀ d ∈ docs, (d.get field).isStrOrNone = true)
    (hparts : List.Forall₂ (fun part value => IsExtremum op (part.map fun d => d.get field) value)
      parts values)
    (hv : IsExtremum op (docs.map fun d => d.get field) v) : IsExtremum op values v := by
  have hflatten : (parts.map (List.map fun d => d.get field)).flatten =
      parts.flatten.map fun d => d.get field := List.map_flatten.symm
  have hvalues := hv.perm (hperm.symm.map _)
  rw [← hflatten] at hvalues
  refine IsExtremum.rollUp hop (fun w hw => ?_) (List.forall₂_map_left_iff.mpr hparts) hvalues
  rw [hflatten] at hw
  exact isPlain_field hkind w ((hperm.map _).mem_iff.mp hw)

/-- **An aggregate** rolls up. -/
theorem AggSpec.rollsUp {parts : List (List Doc)} {values : List PyVal}
    (hperm : parts.flatten.Perm docs) (hkind : spec.OfOneKind docs)
    (hparts : List.Forall₂ (fun part value => spec.IsValue part value) parts values)
    (hv : spec.IsValue docs v) : spec.RollsUp values v := by
  cases spec with
  | countAgg =>
      have hvalues : (parts.map fun part => PyVal.int part.length) = values.map id :=
        map_eq_map_of_forall₂ hparts fun _ _ h => h.symm
      refine ⟨parts.map fun part => (part.length : ℤ), ?_, ?_⟩
      · rw [List.map_map, ← List.map_id values, ← hvalues]
        rfl
      · have hlength : docs.length = (parts.map List.length).sum := by
          rw [← hperm.length_eq, List.length_flatten]
        rw [AggSpec.IsValue, hlength] at hv
        rw [hv, Nat.cast_list_sum, List.map_map]
        rfl
  | sumAgg field =>
      have hvalues : (parts.map fun part => PyVal.int (ints field part).sum) = values.map id :=
        map_eq_map_of_forall₂ hparts fun _ _ h => h.symm
      refine ⟨parts.map fun part => (ints field part).sum, ?_, ?_⟩
      · rw [List.map_map, ← List.map_id values, ← hvalues]
        rfl
      · have hints : (ints field docs).Perm (parts.map (ints field)).flatten := by
          have hflatten : (parts.map (ints field)).flatten = ints field parts.flatten :=
            List.filterMap_flatten.symm
          rw [hflatten]
          exact (hperm.filterMap _).symm
        rw [AggSpec.IsValue, hints.sum_eq, List.sum_flatten, List.map_map] at hv
        exact hv
  | avgAgg field => trivial
  | minAgg field => exact isExtremum_rollUp (Or.inl rfl) hperm hkind hparts hv
  | maxAgg field => exact isExtremum_rollUp (Or.inr rfl) hperm hkind hparts hv

/-- The extremum of values in another order. -/
theorem extremum_perm {op : OrderOp} (hop : op = .lt ∨ op = .gt) (hperm : docs.Perm docs')
    (hkind : (∀ d ∈ docs, (d.get field).isIntOrNone = true) ∨
      ∀ d ∈ docs, (d.get field).isStrOrNone = true) :
    extremum op (nonNull (docs.map fun d => d.get field)) =
      extremum op (nonNull (docs'.map fun d => d.get field)) := by
  have hkind' : (∀ d ∈ docs', (d.get field).isIntOrNone = true) ∨
      ∀ d ∈ docs', (d.get field).isStrOrNone = true := by
    simpa only [hperm.mem_iff] using hkind
  obtain ⟨v, hv, hextremum⟩ := exists_extremum_of_oneKind hop
    (hkind.imp List.forall_mem_map.mpr List.forall_mem_map.mpr)
  obtain ⟨v', hv', hextremum'⟩ := exists_extremum_of_oneKind hop
    (hkind'.imp List.forall_mem_map.mpr List.forall_mem_map.mpr)
  have hweaken : op.weaken = .le ∨ op.weaken = .ge := by
    rcases hop with rfl | rfl
    · exact Or.inl rfl
    · exact Or.inr rfl
  rw [hv, hv', hextremum.unique hweaken (isPlain_field hkind) (hextremum'.perm (hperm.symm.map _))]

/-- **An aggregate** ignores the order of the documents. -/
theorem AggSpec.compute_perm (hperm : docs.Perm docs') (hkind : spec.OfOneKind docs) :
    spec.compute (spec.values docs) = spec.compute (spec.values docs') := by
  have hints : ∀ field, (ints field docs).Perm (ints field docs') := fun field =>
    hperm.filterMap _
  have hkind' : spec.OfOneKind docs' := hkind.of_subset hperm.symm.subset
  cases spec with
  | countAgg =>
      rw [compute, values, compute, values, List.length_map, List.length_map, hperm.length_eq]
  | sumAgg field =>
      rw [compute, values, compute, values, nonNull_field hkind, nonNull_field hkind',
        PyVal.sum_int, PyVal.sum_int, (hints field).sum_eq]
  | avgAgg field =>
      rw [compute_avg hkind, compute_avg hkind', (hints field).sum_eq, (hints field).length_eq]
      simp only [← List.length_eq_zero_iff, (hints field).length_eq]
  | minAgg field => exact extremum_perm (Or.inl rfl) hperm hkind
  | maxAgg field => exact extremum_perm (Or.inr rfl) hperm hkind

end Parts

/-! ### Rows -/

section Rows

variable {docs docs' : List Doc} {gs hs : List String} {aggregates : OrdDict String AggSpec}

/-- A row ignores the order of its documents. -/
theorem aggregateRow_perm (hperm : docs.Perm docs')
    (hkind : ∀ spec ∈ aggregates.values, spec.OfOneKind docs) {key : List PyVal} {row : Doc}
    (h : aggregateRow gs aggregates key docs = .ok row) :
    aggregateRow gs aggregates key docs' = .ok row := by
  obtain ⟨values, hvalues, hrow⟩ := aggregateRow_eq_ok_iff.mp h
  refine aggregateRow_eq_ok_iff.mpr ⟨values, ?_, hrow⟩
  refine forall₂_imp_of_mem hvalues fun e he value hvalue => ⟨hvalue.1, ?_⟩
  rw [← AggSpec.compute_perm hperm (hkind e.2 (List.mem_map_of_mem he))]
  exact hvalue.2

/-- The rows ignore the order of the documents. -/
theorem applyAggregates_perm (hperm : docs.Perm docs')
    (hplain : ∀ d ∈ docs, ∀ f ∈ gs, (d.get f).isPlain = true)
    (hkind : ∀ spec ∈ aggregates.values, spec.OfOneKind docs) {rows : List Doc}
    (h : applyAggregates docs gs aggregates = .ok rows) :
    ∃ rows', applyAggregates docs' gs aggregates = .ok rows' ∧ rows.Perm rows' := by
  have hplain' : ∀ d ∈ docs', ∀ f ∈ gs, (d.get f).isPlain = true := fun d hd =>
    hplain d (hperm.mem_iff.mpr hd)
  rw [applyAggregates_eq_mapM hplain, mapM_eq_ok_iff] at h
  have hrow : List.Forall₂ (fun key row => aggregateRow gs aggregates key
      (GroupBy.members (fun d => groupKey d gs) docs' key) = .ok row)
      (GroupBy.keys (fun d => groupKey d gs) docs) rows := by
    refine h.imp fun key row hrow => ?_
    exact aggregateRow_perm (GroupBy.members_perm hperm key)
      (fun spec hspec => (hkind spec hspec).of_subset List.filter_sublist.subset) hrow
  have hkeys : (GroupBy.keys (fun d => groupKey d gs) docs').Perm
      (GroupBy.keys (fun d => groupKey d gs) docs) := GroupBy.keys_perm hperm.symm
  obtain ⟨rows', hrows', hperm'⟩ := List.perm_comp_forall₂ hkeys hrow
  refine ⟨rows', ?_, hperm'.symm⟩
  rw [applyAggregates_eq_mapM hplain', mapM_eq_ok_iff]
  exact hrows'

/-! ### Fewer fields -/

/-- The part of a key of more fields that some of them are. -/
def subKey (gs hs : List String) (key : List PyVal) : List PyVal :=
  groupKey (OrdDict.ofList (gs.zip key)) hs

theorem subKey_groupKey (hsub : hs ⊆ gs) (d : Doc) :
    subKey gs hs (groupKey d gs) = groupKey d hs := by
  have hzip : gs.zip (groupKey d gs) = gs.map fun f => (f, d.get f) :=
    List.map_prod_left_eq_zip.symm
  rw [subKey, hzip]
  refine List.map_congr_left fun f hf => ?_
  have hget : (OrdDict.ofList (gs.map fun f => (f, d.get f))).get? f = some (d.get f) :=
    OrdDict.get?_assign_map d.get (hsub hf)
  rw [Doc.get, hget, Option.getD_some]

/-- A coarse group is made of the fine groups that extend its key. -/
theorem perm_extending (hsub : hs ⊆ gs) (docs : List Doc) (key : List PyVal) :
    (((GroupBy.keys (fun d => groupKey d gs) docs).filter fun k => subKey gs hs k = key).map
        (GroupBy.members (fun d => groupKey d gs) docs)).flatten.Perm
      (GroupBy.members (fun d => groupKey d hs) docs key) := by
  have hkey : (fun d => groupKey d hs) = fun d => subKey gs hs (groupKey d gs) :=
    funext fun d => (subKey_groupKey hsub d).symm
  rw [← List.flatMap_def, hkey]
  exact GroupBy.perm_coarse (subKey gs hs) key

/-- What a row says of some of its fields. -/
theorem IsRow.map_get? {row d : Doc} (h : IsRow gs aggregates (groupKey d gs) docs row)
    (hsub : hs ⊆ gs) : hs.map row.get? = (groupKey d hs).map some := by
  have hkey := h.key
  rw [groupKey, List.map_map, List.map_inj_left] at hkey
  rw [groupKey, List.map_map]
  exact List.map_congr_left fun f hf => hkey f (hsub hf)

/-- The fine rows that extend the key of a coarse row are those of its parts. -/
theorem forall₂_extending {fine : List Doc} {row d : Doc} (hsub : hs ⊆ gs)
    (hfine : List.Forall₂ (fun key r => IsRow gs aggregates key
      (GroupBy.members (fun d => groupKey d gs) docs key) r)
      (GroupBy.keys (fun d => groupKey d gs) docs) fine)
    (hrow : hs.map row.get? = (groupKey d hs).map some) :
    List.Forall₂ (fun key r => IsRow gs aggregates key
        (GroupBy.members (fun d => groupKey d gs) docs key) r)
      ((GroupBy.keys (fun d => groupKey d gs) docs).filter fun key =>
        subKey gs hs key = groupKey d hs)
      (fine.filter fun r => hs.map r.get? = hs.map row.get?) := by
  have hkeyed : List.Forall₂ (fun key r => IsRow gs aggregates key
      (GroupBy.members (fun d => groupKey d gs) docs key) r ∧
        (subKey gs hs key = groupKey d hs ↔ hs.map r.get? = hs.map row.get?))
      (GroupBy.keys (fun d => groupKey d gs) docs) fine := by
    refine forall₂_imp_of_mem hfine fun key hkey r hr => ⟨hr, ?_⟩
    obtain ⟨d', -, rfl⟩ := GroupBy.mem_keys.mp hkey
    rw [subKey_groupKey hsub, hr.map_get? hsub, hrow, List.map_inj_right fun _ _ => Option.some.inj]
  refine List.Forall₂.imp (fun _ _ h => h.1) (List.rel_filter (fun key r h => ?_) hkeyed)
  simpa using h.2

/-- **A coarse row** comes from the fine rows that extend its key. -/
theorem rollsUp_row (hsub : hs ⊆ gs)
    (hplain : ∀ d ∈ docs, ∀ f ∈ gs, (d.get f).isPlain = true)
    (hnames : ∀ name ∈ aggregates.keys, name ∉ gs)
    (hkind : ∀ spec ∈ aggregates.values, spec.OfOneKind docs) {fine coarse : List Doc}
    (hfine : applyAggregates docs gs aggregates = .ok fine)
    (hcoarse : applyAggregates docs hs aggregates = .ok coarse) {row : Doc} (hrow : row ∈ coarse)
    {name : String} {spec : AggSpec} (hspec : aggregates.get? name = some spec) :
    ∃ v values, row.get? name = some v ∧
      ((fine.filter fun r => hs.map r.get? = hs.map row.get?).map fun r => r.get? name) =
        values.map some ∧
      spec.RollsUp values v := by
  have hfines := isRow_applyAggregates hplain hnames hkind hfine
  have hcoarses := isRow_applyAggregates (fun d hd f hf => hplain d hd f (hsub hf))
    (fun name hname hmem => hnames name hname (hsub hmem)) hkind hcoarse
  obtain ⟨key, hkey, hisRow⟩ := exists_of_forall₂ hcoarses.flip hrow
  obtain ⟨d, -, rfl⟩ := GroupBy.mem_keys.mp hkey
  obtain ⟨v, hv, hvalue⟩ := hisRow.value name spec hspec
  have hextending := forall₂_extending hsub hfines (hisRow.map_get? (List.Subset.refl hs))
  -- what the fine rows say under the name
  have hget : ∀ key r, IsRow gs aggregates key
      (GroupBy.members (fun d => groupKey d gs) docs key) r → r.get? name = some (r.get name) ∧
        spec.IsValue (GroupBy.members (fun d => groupKey d gs) docs key) (r.get name) := by
    intro key r hr
    obtain ⟨u, hu, huvalue⟩ := hr.value name spec hspec
    rw [Doc.get, hu, Option.getD_some]
    exact ⟨rfl, huvalue⟩
  refine ⟨v, (fine.filter fun r => hs.map r.get? = hs.map row.get?).map fun r => r.get name, hv,
    ?_, ?_⟩
  · rw [List.map_map]
    refine List.map_congr_left fun r hr => ?_
    obtain ⟨key, -, h⟩ := exists_of_forall₂ hextending.flip hr
    exact (hget key r h).1
  · refine AggSpec.rollsUp (perm_extending hsub docs (groupKey d hs)) ?_ ?_ hvalue
    · exact (hkind spec (List.mem_map.mpr ⟨_, OrdDict.mem_entries_iff.mpr hspec, rfl⟩)).of_subset
        List.filter_sublist.subset
    · rw [List.forall₂_map_left_iff, List.forall₂_map_right_iff]
      exact hextending.imp fun key r h => (hget key r h).2

/-- **Roll-up.**  Of plain group values, and aggregated values of one kind in each
field, the rows by some of the fields come from the rows by all of them that
extend their keys; and another order of the documents gives the same rows in
another order. -/
theorem applyAggregates_rollUp (hsub : hs ⊆ gs)
    (hplain : ∀ d ∈ docs, ∀ f ∈ gs, (d.get f).isPlain = true)
    (hnames : ∀ name ∈ aggregates.keys, name ∉ gs)
    (hkind : ∀ spec ∈ aggregates.values, spec.OfOneKind docs) :
    ((∀ field, .avgAgg field ∉ aggregates.values) → ∃ fine coarse,
      applyAggregates docs gs aggregates = .ok fine ∧
      applyAggregates docs hs aggregates = .ok coarse) ∧
    (∀ fine coarse, applyAggregates docs gs aggregates = .ok fine →
      applyAggregates docs hs aggregates = .ok coarse →
      (coarse.map fun row => hs.map row.get?) =
          (GroupBy.keys (fun d => groupKey d hs) docs).map (List.map some) ∧
        ∀ row ∈ coarse, ∀ name spec, aggregates.get? name = some spec → ∃ v values,
          row.get? name = some v ∧
          ((fine.filter fun r => hs.map r.get? = hs.map row.get?).map fun r => r.get? name) =
            values.map some ∧
          spec.RollsUp values v) ∧
    ∀ docs', docs.Perm docs' → ∀ rows, applyAggregates docs gs aggregates = .ok rows →
      ∃ rows', applyAggregates docs' gs aggregates = .ok rows' ∧ rows.Perm rows' := by
  have hplain' : ∀ d ∈ docs, ∀ f ∈ hs, (d.get f).isPlain = true := fun d hd f hf =>
    hplain d hd f (hsub hf)
  refine ⟨fun havg => ?_, fun fine coarse hfine hcoarse => ⟨?_, ?_⟩,
    fun docs' hperm rows hrows => ?_⟩
  · have hmean : ∀ spec ∈ aggregates.values, ∀ part, spec.MeanInRange part := by
      intro spec hspec part
      cases spec with
      | avgAgg field => exact absurd hspec (havg field)
      | countAgg | sumAgg field | minAgg field | maxAgg field => trivial
    obtain ⟨fine, hfine⟩ := exists_applyAggregates hplain hkind fun spec hspec d _ =>
      hmean spec hspec (GroupBy.members (fun d => groupKey d gs) docs (groupKey d gs))
    obtain ⟨coarse, hcoarse⟩ := exists_applyAggregates hplain' hkind fun spec hspec d _ =>
      hmean spec hspec (GroupBy.members (fun d => groupKey d hs) docs (groupKey d hs))
    exact ⟨fine, coarse, hfine, hcoarse⟩
  · have hcoarses := isRow_applyAggregates hplain'
      (fun name hname hmem => hnames name hname (hsub hmem)) hkind hcoarse
    exact (map_eq_map_of_forall₂ hcoarses fun key row h => h.key.symm).symm
  · exact fun row hrow name spec hspec =>
      rollsUp_row hsub hplain hnames hkind hfine hcoarse hrow hspec
  · exact applyAggregates_perm hperm hplain hkind hrows

end Rows

/-- Totals by country, from totals by country and city. -/
theorem applyAggregates_rollUp_cities :
    let docs : List Doc :=
      [OrdDict.ofList [("country", .str "jp"), ("city", .str "osaka"), ("n", .int 3)],
        OrdDict.ofList [("country", .str "fr"), ("city", .str "lyon"), ("n", .none)],
        OrdDict.ofList [("country", .str "jp"), ("city", .none), ("n", .int 4)]]
    let aggregates : OrdDict String AggSpec := OrdDict.ofList [("total", .sumAgg "n")]
    ∃ fine coarse, applyAggregates docs ["country", "city"] aggregates = .ok fine ∧
      applyAggregates docs ["country"] aggregates = .ok coarse ∧
      ∀ row ∈ coarse, ∃ v values, row.get? "total" = some v ∧
        ((fine.filter fun r => ["country"].map r.get? = ["country"].map row.get?).map
          fun r => r.get? "total") = values.map some ∧
        (AggSpec.sumAgg "n").RollsUp values v := by
  intro docs aggregates
  obtain ⟨hexists, hroll, -⟩ := @applyAggregates_rollUp docs ["country", "city"] ["country"]
    aggregates (by decide) (by decide) (by decide) (by decide)
  obtain ⟨fine, coarse, hfine, hcoarse⟩ := hexists fun _ hmem => nomatch List.mem_singleton.mp hmem
  refine ⟨fine, coarse, hfine, hcoarse, fun row hrow => ?_⟩
  exact (hroll fine coarse hfine hcoarse).2 row hrow "total" _ rfl

end JsonpySql
