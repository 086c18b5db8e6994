/-
JsonpySql/Grouping.lean

What the rows of an aggregation say.

There is one row for each key of the documents, in the order in which the keys
first occur (`applyAggregates_eq_mapM`), and a row tells of the documents with its
key and of no others (`applyAggregates_groups`).  A mean is the one aggregate
that may raise on the values of a document: there is none of strings, and none
that no float can hold.
-/
import Mathlib.Data.String.Basic
import JsonpySql.Aggregates
import JsonpySql.Pushdown

/-! ### Kinds of values -/

namespace PyVal

/-- An integer, or no value. -/
def isIntOrNone : PyVal → Bool
  | .int _ | .none => true
  | _ => false

/-- A string, or no value. -/
def isStrOrNone : PyVal → Bool
  | .str _ | .none => true
  | _ => false

/-- An integer, a string, or no value. -/
def isPlain (v : PyVal) : Bool := v.isIntOrNone || v.isStrOrNone

theorem isIntOrNone_iff {v : PyVal} : v.isIntOrNone = true ↔ v = .none ∨ ∃ n, v = .int n := by
  constructor
  · unfold isIntOrNone
    split
    · exact fun _ => Or.inr ⟨_, rfl⟩
    · exact fun _ => Or.inl rfl
    · exact nofun
  · rintro (rfl | ⟨n, rfl⟩)
    · rfl
    · rfl

theorem isStrOrNone_iff {v : PyVal} : v.isStrOrNone = true ↔ v = .none ∨ ∃ s, v = .str s := by
  constructor
  · unfold isStrOrNone
    split
    · exact fun _ => Or.inr ⟨_, rfl⟩
    · exact fun _ => Or.inl rfl
    · exact nofun
  · rintro (rfl | ⟨n, rfl⟩)
    · rfl
    · rfl

theorem isPlain_iff {v : PyVal} :
    v.isPlain = true ↔ v = .none ∨ (∃ n, v = .int n) ∨ ∃ s, v = .str s := by
  rw [isPlain, Bool.or_eq_true, isIntOrNone_iff, isStrOrNone_iff]
  tauto

/-- Plain values are equal only to themselves. -/
theorem eq_plain {v w : PyVal} (hv : v.isPlain = true) (hw : w.isPlain = true) :
    (v = w || v.eq w) = decide (v = w) := by
  rcases isPlain_iff.mp hv with rfl | ⟨m, rfl⟩ | ⟨s, rfl⟩ <;>
    rcases isPlain_iff.mp hw with rfl | ⟨n, rfl⟩ | ⟨t, rfl⟩ <;>
    simp [PyVal.eq, PyScalar.eq, PyScalar.number?, PyNumber.eq]

end PyVal

namespace OrderOp

variable {α : Type*} [LinearOrder α] {op : OrderOp} {a b c : α}

theorem weaken_of_holds (hop : op = .lt ∨ op = .gt) (hab : op.weaken.holds a b = true)
    (hbc : op.holds b c = true) : op.weaken.holds a c = true := by
  rcases hop with rfl | rfl
  · exact decide_eq_true ((of_decide_eq_true hab).trans (of_decide_eq_true hbc).le)
  · exact decide_eq_true ((of_decide_eq_true hbc).le.trans (of_decide_eq_true hab))

theorem weaken_of_not_holds (hop : op = .lt ∨ op = .gt)
    (hac : op.weaken.holds a c = true) (hbc : op.holds b c = false) :
    op.weaken.holds a b = true := by
  rcases hop with rfl | rfl
  · exact decide_eq_true ((of_decide_eq_true hac).trans (not_lt.mp (of_decide_eq_false hbc)))
  · exact decide_eq_true ((not_lt.mp (of_decide_eq_false hbc)).trans (of_decide_eq_true hac))

theorem weaken_self (hop : op = .lt ∨ op = .gt) : op.weaken.holds a a = true := by
  rcases hop with rfl | rfl
  · exact decide_eq_true le_rfl
  · exact decide_eq_true le_rfl

end OrderOp

namespace JsonpySql

/-! ### What an aggregate is -/

/-- The integers of a field. -/
def ints (field : String) (docs : List Doc) : List ℤ :=
  docs.filterMap fun d => (d.get field).index?

/-- The outermost of the values that are there, or none where there is none. -/
def IsExtremum (op : OrderOp) (values : List PyVal) (v : PyVal) : Prop :=
  if nonNull values = [] then v = .none
  else v ∈ nonNull values ∧ ∀ w ∈ nonNull values, v.order op w = .ok true

namespace AggSpec

/-- The field of the aggregate holds values of one kind, and numbers if they are
added. -/
def OfOneKind (docs : List Doc) : AggSpec → Prop
  | .countAgg => True
  | .sumAgg field | .avgAgg field => ∀ d ∈ docs, (d.get field).isIntOrNone = true
  | .minAgg field | .maxAgg field =>
      (∀ d ∈ docs, (d.get field).isIntOrNone = true) ∨ ∀ d ∈ docs, (d.get field).isStrOrNone = true

instance (docs : List Doc) : (spec : AggSpec) → Decidable (spec.OfOneKind docs)
  | .countAgg => inferInstanceAs (Decidable True)
  | .sumAgg _ | .avgAgg _ => inferInstanceAs (Decidable (∀ _ ∈ _, _ = true))
  | .minAgg _ | .maxAgg _ => inferInstanceAs (Decidable ((∀ _ ∈ _, _ = true) ∨ ∀ _ ∈ _, _ = true))

/-- If the aggregate is a mean, a float can hold it. -/
def MeanInRange (docs : List Doc) : AggSpec → Prop
  | .avgAgg field => ints field docs ≠ [] →
      PyVal.InFloatRange (ints field docs).sum (ints field docs).length
  | _ => True

instance (docs : List Doc) : (spec : AggSpec) → Decidable (spec.MeanInRange docs)
  | .avgAgg _ => inferInstanceAs (Decidable (_ ≠ [] → PyVal.InFloatRange _ _))
  | .countAgg | .sumAgg _ | .minAgg _ | .maxAgg _ => inferInstanceAs (Decidable True)

/-- The aggregate of some documents. -/
def IsValue (docs : List Doc) (v : PyVal) : AggSpec → Prop
  | .countAgg => v = .int docs.length
  | .sumAgg field => v = .int (ints field docs).sum
  | .avgAgg field =>
      if ints field docs = [] then v = .none
      else PyVal.divCount (.int (ints field docs).sum) (ints field docs).length = .ok v
  | .minAgg field => IsExtremum .le (docs.map fun d => d.get field) v
  | .maxAgg field => IsExtremum .ge (docs.map fun d => d.get field) v

end AggSpec

/-! ### Computing one -/

section Field

variable {field : String} {docs : List Doc}

theorem nonNull_ints {values : List PyVal} (h : ∀ v ∈ values, v.isIntOrNone = true) :
    nonNull values = (values.filterMap PyVal.index?).map PyVal.int := by
  induction values with
  | nil => rfl
  | cons v values ih =>
      have htail := ih fun w hw => h w (List.mem_cons_of_mem _ hw)
      rcases PyVal.isIntOrNone_iff.mp (h v List.mem_cons_self) with rfl | ⟨n, rfl⟩
      · exact htail
      · exact congrArg (PyVal.int n :: ·) htail

theorem nonNull_strs {values : List PyVal} (h : ∀ v ∈ values, v.isStrOrNone = true) :
    ∃ ss : List String, nonNull values = ss.map PyVal.str := by
  induction values with
  | nil => exact ⟨[], rfl⟩
  | cons v values ih =>
      obtain ⟨ss, htail⟩ := ih fun w hw => h w (List.mem_cons_of_mem _ hw)
      rcases PyVal.isStrOrNone_iff.mp (h v List.mem_cons_self) with rfl | ⟨s, rfl⟩
      · exact ⟨ss, htail⟩
      · exact ⟨s :: ss, congrArg (PyVal.str s :: ·) htail⟩

theorem nonNull_field (h : ∀ d ∈ docs, (d.get field).isIntOrNone = true) :
    nonNull (docs.map fun d => d.get field) = (ints field docs).map PyVal.int := by
  rw [nonNull_ints (List.forall_mem_map.mpr h), List.filterMap_map]
  rfl

end Field

section Linear

variable {α : Type*} [LinearOrder α] {op : OrderOp}

/-- What `min` and `max` do to values that stand for items of a linear order. -/
theorem exists_foldlM {f : α → PyVal} (hop : op = .lt ∨ op = .gt)
    (hf : ∀ a b, (f a).order op (f b) = .ok (op.holds a b)) (as : List α) (current : α) :
    ∃ m ∈ current :: as, (as.map f).foldlM (fun current item => do
        if ← compareValues op item current then return item else return current) (f current) =
      (.ok (f m) : Except PyErr PyVal) ∧ ∀ a ∈ current :: as, op.weaken.holds m a = true := by
  induction as generalizing current with
  | nil =>
      refine ⟨current, List.mem_cons_self, rfl, fun a ha => ?_⟩
      rw [List.mem_singleton.mp ha]
      exact OrderOp.weaken_self hop
  | cons a as ih =>
      have hstep : compareValues op (f a) (f current) = .ok (op.holds a current) := by
        rw [compareValues, hf]
        rfl
      rw [List.map_cons, List.foldlM_cons, hstep, ok_bind]
      rcases hholds : op.holds a current with _ | _
      -- the current item stays, and the new one is no better
      · obtain ⟨m, hm, hfold, hall⟩ := ih current
        have hcurrent := hall current List.mem_cons_self
        refine ⟨m, ?_, hfold, fun b hb => ?_⟩
        · rcases List.mem_cons.mp hm with rfl | hm
          · exact List.mem_cons_self
          · exact List.mem_cons_of_mem _ (List.mem_cons_of_mem _ hm)
        · rcases List.mem_cons.mp hb with rfl | hb
          · exact hcurrent
          · rcases List.mem_cons.mp hb with rfl | hb
            · exact OrderOp.weaken_of_not_holds hop hcurrent hholds
            · exact hall b (List.mem_cons_of_mem _ hb)
      -- the new item replaces the current one
      · obtain ⟨m, hm, hfold, hall⟩ := ih a
        refine ⟨m, List.mem_cons_of_mem _ hm, hfold, fun b hb => ?_⟩
        rcases List.mem_cons.mp hb with rfl | hb
        · exact OrderOp.weaken_of_holds hop (hall a List.mem_cons_self) hholds
        · exact hall b hb

/-- The extremum of such values. -/
theorem exists_extremum {f : α → PyVal} (hop : op = .lt ∨ op = .gt)
    (hf : ∀ op a b, (f a).order op (f b) = .ok (OrderOp.holds op a b)) {values : List PyVal}
    {as : List α} (has : nonNull values = as.map f) :
    ∃ v, extremum op (nonNull values) = .ok v ∧ IsExtremum op.weaken values v := by
  simp only [IsExtremum, has]
  cases as with
  | nil => exact ⟨.none, rfl, rfl⟩
  | cons a as =>
      obtain ⟨m, hm, hfold, hall⟩ := exists_foldlM hop (hf op) as a
      have hne : (a :: as).map f ≠ [] := List.cons_ne_nil _ _
      refine ⟨f m, hfold, ?_⟩
      rw [if_neg hne]
      refine ⟨List.mem_map_of_mem hm, fun w hw => ?_⟩
      obtain ⟨b, hb, rfl⟩ := List.mem_map.mp hw
      rw [hf, hall b hb]

end Linear

section Compute

variable {field : String} {docs : List Doc} {spec : AggSpec} {v : PyVal}

/-- The extremum of values of one kind. -/
theorem exists_extremum_of_oneKind {values : List PyVal} {op : OrderOp} (hop : op = .lt ∨ op = .gt)
    (h : (∀ v ∈ values, v.isIntOrNone = true) ∨ ∀ v ∈ values, v.isStrOrNone = true) :
    ∃ v, extremum op (nonNull values) = .ok v ∧ IsExtremum op.weaken values v := by
  rcases h with h | h
  · exact exists_extremum hop PyVal.order_int (nonNull_ints h)
  · obtain ⟨ss, hss⟩ := nonNull_strs h
    exact exists_extremum hop PyVal.order_str hss

theorem compute_avg (h : ∀ d ∈ docs, (d.get field).isIntOrNone = true) :
    (AggSpec.avgAgg field).compute ((AggSpec.avgAgg field).values docs) =
      if ints field docs = [] then .ok .none
      else PyVal.divCount (.int (ints field docs).sum) (ints field docs).length := by
  rw [AggSpec.compute, AggSpec.values, nonNull_field h, PyVal.sum_int, ok_bind, List.length_map]
  simp only [List.isEmpty_map, List.isEmpty_iff]

/-- A mean that no float can hold apart, an aggregate has a value. -/
theorem exists_compute (hkind : spec.OfOneKind docs) (hmean : spec.MeanInRange docs) :
    ∃ v, spec.compute (spec.values docs) = .ok v := by
  cases spec with
  | countAgg => exact ⟨_, rfl⟩
  | sumAgg field =>
      rw [AggSpec.compute, AggSpec.values, nonNull_field hkind, PyVal.sum_int]
      exact ⟨_, rfl⟩
  | avgAgg field =>
      rw [compute_avg hkind]
      split
      · exact ⟨_, rfl⟩
      · next hne => exact PyVal.exists_divCount_int (hmean hne)
  | minAgg field =>
      obtain ⟨v, hv, -⟩ := exists_extremum_of_oneKind (Or.inl rfl)
        (hkind.imp List.forall_mem_map.mpr List.forall_mem_map.mpr)
      exact ⟨v, hv⟩
  | maxAgg field =>
      obtain ⟨v, hv, -⟩ := exists_extremum_of_oneKind (Or.inr rfl)
        (hkind.imp List.forall_mem_map.mpr List.forall_mem_map.mpr)
      exact ⟨v, hv⟩

/-- The value it has is the aggregate of the documents. -/
theorem isValue_of_compute (hkind : spec.OfOneKind docs)
    (h : spec.compute (spec.values docs) = .ok v) : spec.IsValue docs v := by
  cases spec with
  | countAgg =>
      obtain rfl := Except.ok.inj h
      rw [AggSpec.IsValue, AggSpec.values, List.length_map]
  | sumAgg field =>
      rw [AggSpec.compute, AggSpec.values, nonNull_field hkind, PyVal.sum_int] at h
      exact (Except.ok.inj h).symm
  | avgAgg field =>
      rw [compute_avg hkind] at h
      rw [AggSpec.IsValue]
      split at h
      · next hnil =>
          rw [if_pos hnil]
          exact (Except.ok.inj h).symm
      · next hne =>
          rw [if_neg hne]
          exact h
  | minAgg field =>
      obtain ⟨v', hv', hextremum⟩ := exists_extremum_of_oneKind (Or.inl rfl)
        (hkind.imp List.forall_mem_map.mpr List.forall_mem_map.mpr)
      obtain rfl := Except.ok.inj (hv'.symm.trans h)
      exact hextremum
  | maxAgg field =>
      obtain ⟨v', hv', hextremum⟩ := exists_extremum_of_oneKind (Or.inr rfl)
        (hkind.imp List.forall_mem_map.mpr List.forall_mem_map.mpr)
      obtain rfl := Except.ok.inj (hv'.symm.trans h)
      exact hextremum

end Compute

/-! ### Rows -/

/-- The row of a group: its key, and the aggregates of its documents. -/
structure IsRow (groupFields : List String) (aggregates : OrdDict String AggSpec)
    (key : List PyVal) (docs : List Doc) (row : Doc) : Prop where
  key : groupFields.map row.get? = key.map some
  value : ∀ name spec, aggregates.get? name = some spec →
    ∃ v, row.get? name = some v ∧ spec.IsValue docs v
  names : ∀ name ∈ row.keys, name ∈ groupFields ∨ name ∈ aggregates.keys

/-- A list of results returns when each of them does. -/
theorem mapM_eq_ok_iff {ε α β : Type} {f : α → Except ε β} {l : List α} {bs : List β} :
    l.mapM f = .ok bs ↔ List.Forall₂ (fun a b => f a = .ok b) l bs := by
  induction l generalizing bs with
  | nil =>
      rw [List.mapM_nil, List.forall₂_nil_left_iff]
      exact ⟨fun h => (Except.ok.inj h).symm, fun h => congrArg _ h.symm⟩
  | cons a l ih =>
      simp only [List.mapM_cons, bind_eq_ok_iff, List.forall₂_cons_left_iff]
      constructor
      · rintro ⟨b, hb, bs', hbs', heq⟩
        exact ⟨b, bs', hb, ih.mp hbs', (Except.ok.inj heq).symm⟩
      · rintro ⟨b, bs', hb, hbs', rfl⟩
        exact ⟨b, hb, bs', ih.mpr hbs', rfl⟩

/-- Lists whose items correspond have the same image where these have. -/
theorem map_eq_map_of_forall₂ {α β γ : Type*} {R : α → β → Prop} {f : α → γ} {g : β → γ}
    {l : List α} {l' : List β} (h : List.Forall₂ R l l') (hR : ∀ a b, R a b → f a = g b) :
    l.map f = l'.map g := by
  induction h with
  | nil => rfl
  | cons hab _ ih => rw [List.map_cons, List.map_cons, hR _ _ hab, ih]

theorem exists_of_forall₂ {α β : Type*} {R : α → β → Prop} {l : List α} {l' : List β}
    (h : List.Forall₂ R l l') {a : α} (ha : a ∈ l) : ∃ b ∈ l', R a b := by
  induction h with
  | nil => cases ha
  | cons hab _ ih =>
      rcases List.mem_cons.mp ha with rfl | ha
      · exact ⟨_, List.mem_cons_self, hab⟩
      · obtain ⟨b, hb, h⟩ := ih ha
        exact ⟨b, List.mem_cons_of_mem _ hb, h⟩

theorem forall₂_imp_of_mem {α β : Type*} {R S : α → β → Prop} {l : List α} {l' : List β}
    (h : List.Forall₂ R l l') (hS : ∀ a ∈ l, ∀ b, R a b → S a b) : List.Forall₂ S l l' := by
  induction h with
  | nil => exact .nil
  | cons hab _ ih =>
      exact .cons (hS _ List.mem_cons_self _ hab) (ih fun a ha => hS a (List.mem_cons_of_mem _ ha))

theorem exists_list_of_forall {α β : Type*} {R : α → β → Prop} {l : List α}
    (h : ∀ a ∈ l, ∃ b, R a b) : ∃ l', List.Forall₂ R l l' := by
  induction l with
  | nil => exact ⟨[], .nil⟩
  | cons a l ih =>
      obtain ⟨b, hb⟩ := h a List.mem_cons_self
      obtain ⟨l', hl'⟩ := ih fun a' ha' => h a' (List.mem_cons_of_mem _ ha')
      exact ⟨b :: l', .cons hb hl'⟩

section Row

variable {groupFields : List String} {aggregates : OrdDict String AggSpec} {key : List PyVal}
  {docs : List Doc} {row d : Doc}

/-- What the row of a group is made of. -/
theorem aggregateRow_eq_ok_iff : aggregateRow groupFields aggregates key docs = .ok row ↔
    ∃ values : List (String × PyVal),
      List.Forall₂ (fun e value => value.1 = e.1 ∧ e.2.compute (e.2.values docs) = .ok value.2)
        aggregates.entries values ∧
      (OrdDict.ofList (groupFields.zip key)).assign values = row := by
  rw [aggregateRow, bind_eq_ok_iff]
  simp only [mapM_eq_ok_iff, bind_eq_ok_iff]
  refine exists_congr fun values => and_congr ?_ ⟨Except.ok.inj, congrArg _⟩
  refine iff_of_eq (congrFun (congrFun (congrArg _ (funext₂ fun e value => propext ?_)) _) _)
  constructor
  · rintro ⟨v, hv, heq⟩
    obtain rfl := Except.ok.inj heq
    exact ⟨rfl, hv⟩
  · rintro ⟨hname, hv⟩
    refine ⟨value.2, hv, ?_⟩
    rw [← hname]
    rfl

/-- A row that is there is the row of its group. -/
theorem isRow_of_aggregateRow (hnames : ∀ name ∈ aggregates.keys, name ∉ groupFields)
    (hkind : ∀ spec ∈ aggregates.values, spec.OfOneKind docs)
    (h : aggregateRow groupFields aggregates (groupKey d groupFields) docs = .ok row) :
    IsRow groupFields aggregates (groupKey d groupFields) docs row := by
  obtain ⟨values, hvalues, rfl⟩ := aggregateRow_eq_ok_iff.mp h
  have hfst : values.map Prod.fst = aggregates.keys :=
    (map_eq_map_of_forall₂ hvalues fun _ _ h => h.1.symm).symm
  have hzip : groupFields.zip (groupKey d groupFields) = groupFields.map fun f => (f, d.get f) :=
    List.map_prod_left_eq_zip.symm
  rw [hzip]
  refine ⟨?_, fun name spec hspec => ?_, fun name hname => ?_⟩
  · rw [groupKey, List.map_map]
    refine List.map_congr_left fun f hf => ?_
    have hnot : f ∉ values.map Prod.fst := fun hmem => hnames f (hfst ▸ hmem) hf
    rw [OrdDict.get?_assign_of_notMem hnot]
    exact OrdDict.get?_assign_map d.get hf
  · have hentry := OrdDict.mem_entries_iff.mpr hspec
    obtain ⟨value, hmem, rfl, hv⟩ := exists_of_forall₂ hvalues hentry
    refine ⟨value.2, OrdDict.get?_assign_of_mem (hfst ▸ aggregates.keys_nodup) hmem, ?_⟩
    exact isValue_of_compute (hkind spec (List.mem_map.mpr ⟨_, hentry, rfl⟩)) hv
  · rcases OrdDict.mem_keys_assign.mp hname with hname | hname
    · rw [OrdDict.mem_keys_ofList, List.map_map] at hname
      obtain ⟨f, hf, rfl⟩ := List.mem_map.mp hname
      exact Or.inl hf
    · exact Or.inr (hfst ▸ hname)

/-- Where its means fit in a float, there is a row. -/
theorem exists_aggregateRow (hkind : ∀ spec ∈ aggregates.values, spec.OfOneKind docs)
    (hmean : ∀ spec ∈ aggregates.values, spec.MeanInRange docs) :
    ∃ row, aggregateRow groupFields aggregates key docs = .ok row := by
  have hall : ∀ e ∈ aggregates.entries, ∃ value : String × PyVal,
      value.1 = e.1 ∧ e.2.compute (e.2.values docs) = .ok value.2 := by
    intro e he
    obtain ⟨v, hv⟩ := exists_compute (hkind _ (List.mem_map_of_mem he))
      (hmean _ (List.mem_map_of_mem he))
    exact ⟨(e.1, v), rfl, hv⟩
  obtain ⟨values, hvalues⟩ := exists_list_of_forall hall
  exact ⟨_, aggregateRow_eq_ok_iff.mpr ⟨values, hvalues, rfl⟩⟩

end Row

/-! ### Groups -/

section Groups

variable {groupFields : List String} {docs : List Doc}

theorem groupKey_cons (d : Doc) (f : String) (groupFields : List String) :
    groupKey d (f :: groupFields) = d.get f :: groupKey d groupFields := rfl

theorem sameKey_cons (v w : PyVal) (vs ws : List PyVal) :
    sameKey (v :: vs) (w :: ws) = ((v = w || v.eq w) && sameKey vs ws) := by
  simp only [sameKey, List.length_cons, Nat.add_right_cancel_iff, List.zip_cons_cons, List.all_cons]
  rw [Bool.and_left_comm]

/-- The groups are by the values of the fields. -/
theorem sameKey_groupKey {d d' : Doc} (hd : ∀ f ∈ groupFields, (d.get f).isPlain = true)
    (hd' : ∀ f ∈ groupFields, (d'.get f).isPlain = true) :
    sameKey (groupKey d groupFields) (groupKey d' groupFields) =
      decide (groupKey d groupFields = groupKey d' groupFields) := by
  induction groupFields with
  | nil => rfl
  | cons f groupFields ih =>
      have htail := ih (fun f' hf' => hd f' (List.mem_cons_of_mem _ hf'))
        fun f' hf' => hd' f' (List.mem_cons_of_mem _ hf')
      have hhead := PyVal.eq_plain (hd f List.mem_cons_self) (hd' f List.mem_cons_self)
      simp only [groupKey_cons, sameKey_cons, hhead, htail, List.cons_eq_cons, Bool.decide_and]

/-- Keys of plain values are hashable. -/
theorem checkHashable_groupKey {d : Doc} (hd : ∀ f ∈ groupFields, (d.get f).isPlain = true) :
    checkHashable (groupKey d groupFields) = .ok () := by
  induction groupFields with
  | nil => rfl
  | cons f groupFields ih =>
      have htail := ih fun f' hf' => hd f' (List.mem_cons_of_mem _ hf')
      rcases PyVal.isPlain_iff.mp (hd f List.mem_cons_self) with h | ⟨n, h⟩ | ⟨s, h⟩
      all_goals
        rw [groupKey_cons, h]
        exact htail

/-- The loop files the documents under their keys. -/
theorem accumulate_eq (h : ∀ d ∈ docs, ∀ f ∈ groupFields, (d.get f).isPlain = true)
    (groups : List (List PyVal × List Doc)) : accumulate groupFields docs groups =
      .ok (GroupBy.collect sameKey (fun d => groupKey d groupFields) docs groups) := by
  induction docs generalizing groups with
  | nil => rfl
  | cons d docs ih =>
      rw [accumulate, checkHashable_groupKey (h d List.mem_cons_self), ok_bind,
        ih fun d' hd' => h d' (List.mem_cons_of_mem _ hd')]
      rfl

/-- **One row for each key**, made of the documents with this key. -/
theorem applyAggregates_eq_mapM (h : ∀ d ∈ docs, ∀ f ∈ groupFields, (d.get f).isPlain = true)
    (aggregates : OrdDict String AggSpec) : applyAggregates docs groupFields aggregates =
      (GroupBy.keys (fun d => groupKey d groupFields) docs).mapM fun key =>
        aggregateRow groupFields aggregates key
          (GroupBy.members (fun d => groupKey d groupFields) docs key) := by
  have hsame : ∀ d ∈ docs, ∀ d' ∈ docs, sameKey (groupKey d groupFields) (groupKey d' groupFields) =
      decide (groupKey d groupFields = groupKey d' groupFields) :=
    fun d hd d' hd' => sameKey_groupKey (h d hd) (h d' hd')
  rw [applyAggregates, accumulate_eq h, ok_bind, GroupBy.collect_eq hsame, List.mapM_map]
  rfl

variable {aggregates : OrdDict String AggSpec} {rows : List Doc}

/-- A part of the documents is of the same kinds. -/
theorem AggSpec.OfOneKind.of_subset {spec : AggSpec} {docs' : List Doc} (h : spec.OfOneKind docs)
    (hsub : docs' ⊆ docs) : spec.OfOneKind docs' := by
  cases spec with
  | countAgg => exact h
  | sumAgg field | avgAgg field => exact fun d hd => h d (hsub hd)
  | minAgg field | maxAgg field =>
      exact h.imp (fun h d hd => h d (hsub hd)) fun h d hd => h d (hsub hd)

/-- The rows are those of the groups. -/
theorem isRow_applyAggregates (hplain : ∀ d ∈ docs, ∀ f ∈ groupFields, (d.get f).isPlain = true)
    (hnames : ∀ name ∈ aggregates.keys, name ∉ groupFields)
    (hkind : ∀ spec ∈ aggregates.values, spec.OfOneKind docs)
    (h : applyAggregates docs groupFields aggregates = .ok rows) :
    List.Forall₂ (fun key row => IsRow groupFields aggregates key
        (GroupBy.members (fun d => groupKey d groupFields) docs key) row)
      (GroupBy.keys (fun d => groupKey d groupFields) docs) rows := by
  rw [applyAggregates_eq_mapM hplain, mapM_eq_ok_iff] at h
  refine forall₂_imp_of_mem h fun key hkey row hrow => ?_
  obtain ⟨d, -, rfl⟩ := GroupBy.mem_keys.mp hkey
  refine isRow_of_aggregateRow hnames (fun spec hspec => ?_) hrow
  exact (hkind spec hspec).of_subset List.filter_sublist.subset

/-- There are rows where all means fit in a float. -/
theorem exists_applyAggregates (hplain : ∀ d ∈ docs, ∀ f ∈ groupFields, (d.get f).isPlain = true)
    (hkind : ∀ spec ∈ aggregates.values, spec.OfOneKind docs)
    (hmean : ∀ spec ∈ aggregates.values, ∀ d ∈ docs, spec.MeanInRange
      (GroupBy.members (fun d => groupKey d groupFields) docs (groupKey d groupFields))) :
    ∃ rows, applyAggregates docs groupFields aggregates = .ok rows := by
  have hall : ∀ key ∈ GroupBy.keys (fun d => groupKey d groupFields) docs, ∃ row,
      aggregateRow groupFields aggregates key
        (GroupBy.members (fun d => groupKey d groupFields) docs key) = .ok row := by
    intro key hkey
    obtain ⟨d, hd, rfl⟩ := GroupBy.mem_keys.mp hkey
    refine exists_aggregateRow (fun spec hspec => ?_) fun spec hspec => hmean spec hspec d hd
    exact (hkind spec hspec).of_subset List.filter_sublist.subset
  obtain ⟨rows, hrows⟩ := exists_list_of_forall hall
  exact ⟨rows, by rw [applyAggregates_eq_mapM hplain, mapM_eq_ok_iff]; exact hrows⟩

/-- **Grouping loses and duplicates nothing.**  Of plain values, the aggregated
ones of one kind in each field and the means within the range of a float, there
is one row for each key, in the order of first occurrence, and it tells of the
documents with this key; the counts add up to all of them. -/
theorem applyAggregates_groups
    (hplain : ∀ d ∈ docs, ∀ f ∈ groupFields, (d.get f).isPlain = true)
    (hnames : ∀ name ∈ aggregates.keys, name ∉ groupFields)
    (hkind : ∀ spec ∈ aggregates.values, spec.OfOneKind docs)
    (hmean : ∀ spec ∈ aggregates.values, ∀ d ∈ docs, spec.MeanInRange
      (GroupBy.members (fun d => groupKey d groupFields) docs (groupKey d groupFields))) :
    ∃ rows, applyAggregates docs groupFields aggregates = .ok rows ∧
      List.Forall₂ (fun key row => IsRow groupFields aggregates key
          (GroupBy.members (fun d => groupKey d groupFields) docs key) row)
        (GroupBy.keys (fun d => groupKey d groupFields) docs) rows ∧
      ∀ name, aggregates.get? name = some .countAgg → ∃ counts : List ℕ,
        (rows.map fun row => row.get? name) = counts.map (fun n : ℕ => some (PyVal.int n)) ∧
        counts.sum = docs.length := by
  obtain ⟨rows, hrows⟩ := exists_applyAggregates hplain hkind hmean
  have hrow := isRow_applyAggregates hplain hnames hkind hrows
  refine ⟨rows, hrows, hrow, fun name hname =>
    ⟨_, ?_, GroupBy.sum_length_members (fun d => groupKey d groupFields) docs⟩⟩
  rw [List.map_map]
  refine (map_eq_map_of_forall₂ hrow fun key row h => ?_).symm
  obtain ⟨v, hv, hvalue⟩ := h.value name _ hname
  obtain rfl : v = .int _ := hvalue
  exact hv.symm

end Groups

/-- A mean of strings raises. -/
theorem mean_of_names :
    let docs : List Doc := [OrdDict.ofList [("name", .str "ann")]]
    let aggregates : OrdDict String AggSpec := OrdDict.ofList [("mean", .avgAgg "name")]
    (∀ d ∈ docs, (d.get "name").isStrOrNone = true) ∧ (∀ name ∈ aggregates.keys, name ∉ []) ∧
      applyAggregates docs [] aggregates =
        .error (.typeError "unsupported operand type(s) for +: 'int' and 'str'") :=
  ⟨by decide, by decide, rfl⟩

/-- People by country, one of them of unknown age. -/
theorem applyAggregates_groups_people :
    let docs : List Doc := [OrdDict.ofList [("country", .str "jp"), ("age", .int 30)],
      OrdDict.ofList [("country", .str "fr"), ("age", .int 50)],
      OrdDict.ofList [("country", .str "jp"), ("age", .none)]]
    let aggregates : OrdDict String AggSpec := OrdDict.ofList [("n", .countAgg),
      ("total", .sumAgg "age"), ("mean", .avgAgg "age"), ("first", .minAgg "country")]
    ∃ rows, applyAggregates docs ["country"] aggregates = .ok rows ∧ rows.length = 2 ∧
      ∃ counts : List ℕ,
        (rows.map fun row => row.get? "n") = counts.map (fun n : ℕ => some (PyVal.int n)) ∧
        counts.sum = 3 := by
  intro docs aggregates
  obtain ⟨rows, hrows, hrow, hcounts⟩ := @applyAggregates_groups ["country"] docs
    aggregates (by decide) (by decide) (by decide) (by decide +kernel)
  exact ⟨rows, hrows, hrow.length_eq.symm, hcounts "n" rfl⟩

end JsonpySql
