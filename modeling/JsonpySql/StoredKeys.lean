/-
JsonpySql/StoredKeys.lean

The key a document is filed under and the key of the line it is stored as.

`StorageEngine.insert` files the document it is given, `str` making the key;
`rebuild`, `update` and `delete` take the key from the line read back, in which
`json_default` has encoded what JSON does not have.  The two agree on every
JSON value and on a `date`, a `time`, a `Decimal` or a `UUID` itself, whose
`str` is its encoding.  They differ on a `datetime`, printed with a blank and
encoded with a `T`, and on any such value inside a list or a mapping, where it
is printed by its `repr` (`PyVal.toStr_viaJson_iff`).
-/
import JsonpySql.Diverging
import JsonpySql.Refiling
import JsonpySql.Refinement

/-! ### One value -/

theorem head?_strRepr (s : String) :
    ∃ q, (strRepr s).toList.head? = some q ∧ (q = '\x27' ∨ q = '\x22') := by
  rw [strRepr, String.toList_ofList]
  by_cases h : '\x27' ∈ s.toList ∧ '\x22' ∉ s.toList
  · rw [if_pos h]
    exact ⟨_, rfl, Or.inr rfl⟩
  · rw [if_neg h]
    exact ⟨_, rfl, Or.inl rfl⟩

theorem head?_append {s : String} {a : Char} (h : s.toList.head? = some a) (t : String) :
    (s ++ t).toList.head? = some a := by
  rw [String.toList_append, List.head?_append, h]
  rfl

/-- A text that starts with neither quote parts from the `repr` of a string. -/
theorem diverging_strRepr {a : Char} {r : List Char} (s : String) (hr : r.head? = some a)
    (ha : a ≠ '\x27' ∧ a ≠ '\x22') : Diverging r (PyScalar.str s).repr.toList := by
  rw [PyScalar.repr]
  obtain ⟨q, hs, hq⟩ := head?_strRepr s
  refine Diverging.of_head hr hs ?_
  rcases hq with rfl | rfl
  · exact ha.1
  · exact ha.2

namespace PyVal

/-- Not a `datetime`, and no `datetime`, `date`, `time`, `Decimal` or `UUID`
inside a list or a mapping. -/
def Stable : PyVal → Prop
  | .scalar (.datetime _) => False
  | .scalar _ => True
  | v => v.viaJson = v

instance : (v : PyVal) → Decidable v.Stable
  | .scalar (.datetime _) => .isFalse id
  | .scalar .none | .scalar (.bool _) | .scalar (.int _) | .scalar (.float _)
  | .scalar (.str _) | .scalar (.date _) | .scalar (.time _) | .scalar (.decimal _)
  | .scalar (.uuid _) => .isTrue trivial
  | .list _ | .dict _ => inferInstanceAs (Decidable (_ = _))

/-- What JSON does not have is printed by its `repr`, its encoding by that of a
string. -/
theorem repr_scalar_diverging (s : PyScalar) :
    jsonDefault s = s ∨ Diverging s.repr.toList (jsonDefault s).repr.toList := by
  cases s with
  | none | bool b | int n | float x | str s => exact Or.inl rfl
  | datetime d =>
      have hhead : (PyScalar.datetime d).repr.toList.head? = some 'd' :=
        head?_append (head?_append rfl _) _
      exact Or.inr (diverging_strRepr _ hhead (by decide))
  | date d =>
      have hhead : (PyScalar.date d).repr.toList.head? = some 'd' :=
        head?_append (head?_append rfl _) _
      exact Or.inr (diverging_strRepr _ hhead (by decide))
  | time t =>
      have hhead : (PyScalar.time t).repr.toList.head? = some 'd' :=
        head?_append (head?_append rfl _) _
      exact Or.inr (diverging_strRepr _ hhead (by decide))
  | decimal d =>
      have hhead : (PyScalar.decimal d).repr.toList.head? = some 'D' :=
        head?_append (head?_append rfl _) _
      exact Or.inr (diverging_strRepr _ hhead (by decide))
  | uuid u =>
      have hhead : (PyScalar.uuid u).repr.toList.head? = some 'U' :=
        head?_append (head?_append rfl _) _
      exact Or.inr (diverging_strRepr _ hhead (by decide))

theorem reprList_eq_map (xs : List PyVal) : reprList xs = xs.map repr := by
  induction xs with
  | nil => rfl
  | cons x xs ih => rw [reprList, ih, List.map_cons]

theorem reprEntries_eq_map (es : List (String × PyVal)) :
    reprEntries es = es.map fun e => strRepr e.1 ++ ": " ++ repr e.2 := by
  induction es with
  | nil => rfl
  | cons e es ih => rw [reprEntries, ih, List.map_cons]

theorem viaJsonList_eq_map (xs : List PyVal) : viaJsonList xs = xs.map viaJson := by
  induction xs with
  | nil => rfl
  | cons x xs ih => rw [viaJsonList, ih, List.map_cons]

theorem viaJsonEntries_eq_map (es : List (String × PyVal)) :
    viaJsonEntries es = es.map fun e => (e.1, viaJson e.2) := by
  induction es with
  | nil => rfl
  | cons e es ih => rw [viaJsonEntries, ih, List.map_cons]

mutual

/-- **What JSON changes is printed otherwise afterwards.** -/
theorem repr_diverging : ∀ v : PyVal,
    v.viaJson = v ∨ Diverging v.repr.toList v.viaJson.repr.toList
  | .scalar s => by
      rcases repr_scalar_diverging s with h | h
      · exact Or.inl (congrArg PyVal.scalar h)
      · exact Or.inr h
  | .list xs => by
      have hparts := reprList_diverging xs
      have hsame : ∀ x ∈ xs, x.repr.toList = x.viaJson.repr.toList → x.viaJson = x :=
        fun x hx heq => (hparts x hx).resolve_right fun h => h.ne heq
      have hjoin := diverging_intercalate ", ".toList (l := xs) (f := fun x => x.repr.toList)
        (g := fun x => x.viaJson.repr.toList)
        fun x hx => (hparts x hx).imp (fun h => by rw [h]) id
      rcases hjoin with h | h
      · refine Or.inl ?_
        rw [viaJson, viaJsonList_eq_map, List.map_congr_left fun x hx => hsame x hx (h x hx),
          List.map_id']
      · refine Or.inr ?_
        have hwhole := (h.prepend "[".toList).append "]".toList "]".toList
        simpa only [viaJson, repr, reprList_eq_map, viaJsonList_eq_map, String.toList_append,
          String.toList_intercalate, List.map_map, Function.comp_def] using hwhole
  | .dict es => by
      have hparts := reprEntries_diverging es
      have hsame : ∀ e ∈ es, (strRepr e.1 ++ ": " ++ e.2.repr).toList =
          (strRepr e.1 ++ ": " ++ e.2.viaJson.repr).toList → (e.1, e.2.viaJson) = e := by
        intro e he heq
        rw [String.toList_append, String.toList_append (s := strRepr e.1 ++ ": ")] at heq
        rw [(hparts e he).resolve_right fun h => h.ne (List.append_cancel_left heq)]
      have hjoin := diverging_intercalate ", ".toList (l := es)
        (f := fun e => (strRepr e.1 ++ ": " ++ e.2.repr).toList)
        (g := fun e => (strRepr e.1 ++ ": " ++ e.2.viaJson.repr).toList) fun e he => by
          rcases hparts e he with h | h
          · exact Or.inl (by rw [h])
          · refine Or.inr ?_
            rw [String.toList_append, String.toList_append (s := strRepr e.1 ++ ": ")]
            exact h.prepend _
      rcases hjoin with h | h
      · refine Or.inl ?_
        rw [viaJson, viaJsonEntries_eq_map, List.map_congr_left fun e he => hsame e he (h e he),
          List.map_id']
      · refine Or.inr ?_
        have hwhole := (h.prepend "\x7b".toList).append "\x7d".toList "\x7d".toList
        simpa only [viaJson, repr, reprEntries_eq_map, viaJsonEntries_eq_map,
          String.toList_append, String.toList_intercalate, List.map_map, Function.comp_def]
          using hwhole

theorem reprList_diverging : ∀ xs : List PyVal, ∀ x ∈ xs,
    x.viaJson = x ∨ Diverging x.repr.toList x.viaJson.repr.toList
  | [] => by simp
  | x :: xs => List.forall_mem_cons.mpr ⟨repr_diverging x, reprList_diverging xs⟩

theorem reprEntries_diverging : ∀ es : List (String × PyVal), ∀ e ∈ es,
    e.2.viaJson = e.2 ∨ Diverging e.2.repr.toList e.2.viaJson.repr.toList
  | [] => by simp
  | (_, x) :: es => List.forall_mem_cons.mpr ⟨repr_diverging x, reprEntries_diverging es⟩

end

/-- **A value and what it is stored as** are printed alike if the value is
stable, else the two texts part. -/
theorem toStr_viaJson : ∀ v : PyVal, v.Stable ∧ v.toStr = v.viaJson.toStr ∨
    ¬v.Stable ∧ Diverging v.toStr.toList v.viaJson.toStr.toList
  | .scalar (.datetime d) => by
      have hsep : Diverging (" ".toList ++ d.time.isoformat.toList)
          ("T".toList ++ d.time.isoformat.toList) :=
        Diverging.of_head (a := ' ') (b := 'T') rfl rfl (by decide)
      refine Or.inr ⟨id, ?_⟩
      simpa only [toStr, viaJson, jsonDefault, PyScalar.toStr, PyDateTime.isoformat,
        String.toList_append, List.append_assoc] using hsep.prepend d.date.isoformat.toList
  | .scalar .none | .scalar (.bool _) | .scalar (.int _) | .scalar (.float _)
  | .scalar (.str _) | .scalar (.date _) | .scalar (.time _) | .scalar (.decimal _)
  | .scalar (.uuid _) => Or.inl ⟨trivial, rfl⟩
  | .list xs => by
      rcases repr_diverging (.list xs) with h | h
      · exact Or.inl ⟨h, by rw [h]⟩
      · refine Or.inr ⟨fun hstable => h.ne ?_, h⟩
        rw [show viaJson (.list xs) = .list xs from hstable]
  | .dict es => by
      rcases repr_diverging (.dict es) with h | h
      · exact Or.inl ⟨h, by rw [h]⟩
      · refine Or.inr ⟨fun hstable => h.ne ?_, h⟩
        rw [show viaJson (.dict es) = .dict es from hstable]

theorem toStr_viaJson_iff (v : PyVal) : v.toStr = v.viaJson.toStr ↔ v.Stable := by
  rcases v.toStr_viaJson with ⟨hstable, heq⟩ | ⟨hnot, hdiv⟩
  · exact iff_of_true heq hstable
  · exact iff_of_false (fun heq => hdiv.ne (by rw [heq])) hnot

end PyVal

namespace JsonpySql

open StorageEngine

/-! ### One key -/

theorem get_viaJson (d : Doc) (field : String) : d.viaJson.get field = (d.get field).viaJson := by
  rw [Doc.viaJson, Doc.get, Doc.get, OrdDict.get?_mapValues]
  cases d.get? field with
  | none => rfl
  | some v => rfl

/-- **The key of a document and the key of its line** agree just if every field
of the spec is stable. -/
theorem IndexSpec.key_viaJson_iff (spec : IndexSpec) (d : Doc) :
    spec.key d = spec.key d.viaJson ↔ ∀ field ∈ spec.fields, (d.get field).Stable := by
  have htuple : encodeKey (.tuple (spec.fields.map d.get)) =
      encodeKey (.tuple (spec.fields.map d.viaJson.get)) ↔
        ∀ field ∈ spec.fields, (d.get field).Stable := by
    have hparts : ∀ field ∈ spec.fields,
        (d.get field).toStr.toList = (d.viaJson.get field).toStr.toList ∨
          Diverging (d.get field).toStr.toList (d.viaJson.get field).toStr.toList := by
      intro field _
      rw [get_viaJson]
      exact (d.get field).toStr_viaJson.imp (fun h => by rw [h.2]) And.right
    rw [encodeKey, encodeKey, ← String.toList_inj, String.toList_intercalate,
      String.toList_intercalate, List.map_map, List.map_map, List.map_map, List.map_map]
    refine (intercalate_map_eq_iff _ hparts).trans (forall₂_congr fun field _ => ?_)
    rw [get_viaJson, String.toList_inj, PyVal.toStr_viaJson_iff]
  rcases hfields : spec.fields with _ | ⟨field, _ | ⟨field', fields⟩⟩
  · rw [hfields] at htuple
    simpa only [IndexSpec.key, IndexSpec.makeKey, hfields] using htuple
  · rw [IndexSpec.key_single hfields, IndexSpec.key_single hfields, get_viaJson,
      PyVal.toStr_viaJson_iff, List.forall_mem_singleton]
  · rw [hfields] at htuple
    simpa only [IndexSpec.key, IndexSpec.makeKey, hfields] using htuple

/-! ### The entries of a spec -/

/-- An index of the spec lists an id under a key. -/
def IndexManager.Files (im : IndexManager) (spec : IndexSpec) (docId key : String) : Prop :=
  ∃ e ∈ im.indexes, e.1 = spec ∧ docId ∈ InvertedIndex.ids e.2 key

/-- No index lists an id twice under a key. -/
def IndexManager.Tidy (im : IndexManager) : Prop := ∀ e ∈ im.indexes, InvertedIndex.Tidy e.2

variable {env : Env} {w : Database} {c i j key field : String} {im : IndexManager} {t : Table}
  {spec : IndexSpec} {d : Doc}

theorem IndexManager.Exact.tidy (h : im.Exact t) : im.Tidy := fun e he => (h e he).nodup

/-- Exact indexes list each live document under its key. -/
theorem IndexManager.Exact.files_iff (h : im.Exact t) (hspec : spec ∈ im.specs) :
    im.Files spec j key ↔ keyOf spec t j = some key := by
  constructor
  · rintro ⟨e, he, rfl, hj⟩
    exact ((h e he).mem_ids key j).mp hj
  · intro hkey
    obtain ⟨e, he, rfl⟩ := List.mem_map.mp hspec
    exact ⟨e, he, rfl, ((h e he).mem_ids key j).mpr hkey⟩

theorem WriteOp.tidy_newIndexes (op : WriteOp) (ht : t.WF) (h : im.Tidy) :
    (op.newIndexes t im).Tidy := by
  rw [IndexManager.Tidy, op.indexes_newIndexes ht]
  exact tidy_refile h _ _ _

/-- What a write does to the entries of a spec. -/
theorem WriteOp.files_newIndexes (op : WriteOp) (ht : t.WF) (h : im.Tidy)
    (hspec : spec ∈ im.specs) : (op.newIndexes t im).Files spec j key ↔
      if j = op.docId then
        (im.Files spec j key ∧ op.removedKey t spec ≠ some key) ∨ op.filedKey spec = some key
      else im.Files spec j key := by
  have hrefiled : (op.newIndexes t im).Files spec j key ↔ ∃ e ∈ im.indexes, e.1 = spec ∧
      if j = op.docId then
        (j ∈ InvertedIndex.ids e.2 key ∧ op.removedKey t spec ≠ some key) ∨
          op.filedKey spec = some key
      else j ∈ InvertedIndex.ids e.2 key := by
    rw [IndexManager.Files, op.indexes_newIndexes ht]
    constructor
    · rintro ⟨_, he, rfl, hj⟩
      obtain ⟨e, he', rfl⟩ := List.mem_map.mp he
      exact ⟨e, he', rfl, (h e he').mem_ids_refile.mp hj⟩
    · rintro ⟨e, he, rfl, hj⟩
      exact ⟨_, List.mem_map_of_mem he, rfl, (h e he).mem_ids_refile.mpr hj⟩
  rw [hrefiled]
  obtain ⟨e₀, he₀, hfirst⟩ := List.mem_map.mp hspec
  split
  · constructor
    · rintro ⟨e, he, hsame, ⟨hj, hkept⟩ | hfiled⟩
      · exact Or.inl ⟨⟨e, he, hsame, hj⟩, hkept⟩
      · exact Or.inr hfiled
    · rintro (⟨⟨e, he, hsame, hj⟩, hkept⟩ | hfiled)
      · exact ⟨e, he, hsame, Or.inl ⟨hj, hkept⟩⟩
      · exact ⟨e₀, he₀, hfirst, Or.inr hfiled⟩
  · rfl

/-! ### The line and the document -/

theorem WriteOp.line_insert (c i : String) (d : Doc) :
    (WriteOp.insert c i d).line.doc = (withId d i).viaJson := rfl

/-- A field of a document that was given its id. -/
theorem get_withId (d : Doc) (i field : String) :
    (withId d i).get field = if field = "_id" then .str i else d.get field := by
  rw [withId, Doc.get, OrdDict.get?_set]
  split
  · rfl
  · rfl

/-- **An insert files its document under the key of the line** just if the line
is live and every field of the spec is stable. -/
theorem WriteOp.storedKey_insert_iff (c i : String) (d : Doc) (spec : IndexSpec) :
    (WriteOp.insert c i d).storedKey spec = some (spec.key (withId d i)) ↔
      (d.get "_deleted").viaJson.truthy = false ∧
        ∀ field ∈ spec.fields, field ≠ "_id" → (d.get field).Stable := by
  have hdeleted : (WriteOp.insert c i d).line.deleted = (d.get "_deleted").viaJson.truthy := by
    rw [Record.deleted, line_insert, get_viaJson, get_withId, if_neg (by decide)]
  have hstable : (∀ field ∈ spec.fields, ((withId d i).get field).Stable) ↔
      ∀ field ∈ spec.fields, field ≠ "_id" → (d.get field).Stable := by
    refine forall₂_congr fun field _ => ?_
    rw [get_withId]
    by_cases hid : field = "_id"
    · simp [hid, PyVal.Stable]
    · simp [hid]
  rw [← hstable, ← spec.key_viaJson_iff, ← hdeleted, storedKey, Record.slot]
  rcases hdel : (WriteOp.insert c i d).line.deleted with _ | _
  · rw [if_neg (by simp), Option.map_some, Option.some.injEq, line_insert, eq_comm]
    simp
  · simp

/-! ### Insert, rebuild, lookup, delete -/

/-- A lookup of a text finds the document inserted with it. -/
theorem mem_lookup_insert (ht : t.WF) (h : im.Tidy)
    (hfield : ∃ spec ∈ im.specs, spec.fields = [field]) {v : PyVal}
    (hv : ((withId d i).get field).toStr = v.toStr) :
    i ∈ ((WriteOp.insert c i d).newIndexes t im).lookup field v := by
  obtain ⟨e, he, hfields, hfind⟩ :=
    ((WriteOp.insert c i d).newIndexes t im).findIndexFor_of_mem
      ((WriteOp.insert c i d).specs_newIndexes ▸ hfield)
  rw [WriteOp.indexes_newIndexes _ ht] at he
  obtain ⟨e₀, he₀, rfl⟩ := List.mem_map.mp he
  have hfiled : (WriteOp.insert c i d).filedKey e₀.1 = some v.toStr := by
    rw [← hv, ← IndexSpec.key_single hfields]
    rfl
  rw [IndexManager.lookup, hfind]
  refine (h e₀ he₀).mem_ids_refile.mpr ?_
  rw [WriteOp.docId, if_pos rfl]
  exact Or.inr hfiled

section Insert

variable (ht : t.WF) (hexact : im.Exact t) (hnew : t.liveRow i = none) (hspec : spec ∈ im.specs)

include ht hexact hnew hspec

/-- The entries after an insert under an id not in use. -/
theorem files_insert : ((WriteOp.insert c i d).newIndexes t im).Files spec j key ↔
    if j = i then spec.key (withId d i) = key
    else IndexManager.keyOf spec t j = some key := by
  have hnone : IndexManager.keyOf spec t i = none := by
    rw [IndexManager.keyOf, hnew]
    rfl
  rw [WriteOp.files_newIndexes _ ht hexact.tidy hspec, hexact.files_iff hspec]
  by_cases hj : j = i
  · simp [hj, hnone, WriteOp.docId, WriteOp.filedKey, WriteOp.document]
  · simp [hj, WriteOp.docId]

/-- The entries are those of a rebuild if the keys agree. -/
theorem files_rebuild_iff {t' : Table} (ht' : t'.WF)
    (hset : t' = t.set i (WriteOp.insert c i d).line.slot) :
    (∀ j key, ((WriteOp.insert c i d).newIndexes t im).Files spec j key ↔
      (((WriteOp.insert c i d).newIndexes t im).rebuild (DocumentStore.rows t')).Files
        spec j key) ↔
      (WriteOp.insert c i d).storedKey spec = some (spec.key (withId d i)) := by
  set im' := (WriteOp.insert c i d).newIndexes t im with him'
  have hspec' : spec ∈ (im'.rebuild (DocumentStore.rows t')).specs := by
    rw [IndexManager.specs_rebuild, him', WriteOp.specs_newIndexes]
    exact hspec
  have hkey : ∀ j, IndexManager.keyOf spec t' j =
      if j = i then (WriteOp.insert c i d).storedKey spec
      else IndexManager.keyOf spec t j := by
    intro j
    rw [hset, IndexManager.keyOf_set, Function.update_apply]
    rfl
  have hboth : ∀ j key, (im'.Files spec j key ↔
      (im'.rebuild (DocumentStore.rows t')).Files spec j key) ↔
        (j = i → (spec.key (withId d i) = key ↔
          (WriteOp.insert c i d).storedKey spec = some key)) := by
    intro j key
    rw [files_insert ht hexact hnew hspec, (im'.exact_rebuild ht').files_iff hspec', hkey]
    by_cases hj : j = i <;> simp [hj]
  simp only [hboth]
  constructor
  · intro h
    exact (h i _ rfl).mp rfl
  · rintro h j key -
    rw [h, Option.some.injEq]

/-- If the keys agree, a delete removes what was inserted. -/
theorem files_delete {t' : Table} (ht' : t'.WF)
    (hset : t' = t.set i (WriteOp.insert c i d).line.slot)
    (hkeys : (WriteOp.insert c i d).storedKey spec = some (spec.key (withId d i))) :
    ¬((WriteOp.delete c i).newIndexes t' ((WriteOp.insert c i d).newIndexes t im)).Files
      spec i key := by
  have hspec' : spec ∈ ((WriteOp.insert c i d).newIndexes t im).specs := by
    rwa [WriteOp.specs_newIndexes]
  have hremoved : (WriteOp.delete c i).removedKey t' spec = some (spec.key (withId d i)) := by
    rw [← hkeys, WriteOp.removedKey, hset, IndexManager.keyOf_set, Function.update_self]
    rfl
  rw [WriteOp.files_newIndexes _ ht' (WriteOp.tidy_newIndexes _ ht hexact.tidy) hspec',
    files_insert ht hexact hnew hspec, hremoved]
  simp [WriteOp.docId, WriteOp.filedKey, WriteOp.document]

end Insert

/-- What a collection does with a document that is inserted: the entries of the
spec are those a rebuild makes from the rows, the document is found under the
value stored, and a delete leaves no entry of it. -/
structure KeyedAsStored (env : Env) (w : Database) (c i : String) (d : Doc) (spec : IndexSpec) :
    Prop where
  entries : ∃ im rows, ((StorageEngine.insert c i d).exec env w).mem.get? c = some im ∧
    (StorageEngine.scan c).value env ((StorageEngine.insert c i d).exec env w) = .ok rows ∧
    ∀ j key, im.Files spec j key ↔ (im.rebuild rows).Files spec j key
  found : ∀ field, spec.fields = [field] → ∃ rows ids, ∃ r ∈ rows, r.docId = some i ∧
    (StorageEngine.scan c).value env ((StorageEngine.insert c i d).exec env w) = .ok rows ∧
    (StorageEngine.lookup c field (Doc.get r.doc field)).value env
      ((StorageEngine.insert c i d).exec env w) = .ok ids ∧ i ∈ ids
  removed : ∃ im, ((StorageEngine.insert c i d >>= fun _ =>
      StorageEngine.delete c i).exec env w).mem.get? c = some im ∧ ∀ key, ¬im.Files spec i key

/-- **When the index keys a document by what is stored.**  Whatever document is
inserted under an id not in use into a collection with exact indexes: the
entries of a spec are those of the line read back, a lookup of the stored value
finds the document, and a delete leaves no entry of it, just if the document's
`_deleted` is stored as a falsy value and its fields of the spec are stable. -/
theorem keyedAsStored_iff (hw : Serving w) (him : w.mem.get? c = some im)
    (hexact : im.Exact (tables w.disk c))
    (hfree : LockManager.blocked env (jsonlPath c) .exclusive = false)
    (hnew : (tables w.disk c).liveRow i = none) (hspec : spec ∈ im.specs) (d : Doc) :
    KeyedAsStored env w c i d spec ↔ (d.get "_deleted").viaJson.truthy = false ∧
      ∀ field ∈ spec.fields, field ≠ "_id" → (d.get field).Stable := by
  rw [← WriteOp.storedKey_insert_iff c]
  have ht := tables_wf w.disk c
  have hc : c ∈ w.mem.keys := OrdDict.mem_keys_of_get? him
  obtain ⟨hok, hchanged⟩ := perform_spec (.write (.insert c i d)) hw him hfree
  have hinsert : (StorageEngine.insert c i d).value env w = .ok () := hok
  set w' := (EngineOp.write (.insert c i d)).perform.exec env w with hw'
  have hserving : Serving w' := hchanged.serving hc hw
  have hmem : w'.mem.get? c = some ((WriteOp.insert c i d).newIndexes (tables w.disk c) im) :=
    hchanged.get?_self
  have hc' : c ∈ w'.mem.keys := OrdDict.mem_keys_of_get? hmem
  have htable : tables w'.disk c = (tables w.disk c).set i (WriteOp.insert c i d).line.slot :=
    hchanged.table_self
  have hscan : (StorageEngine.scan c).value env w' =
      .ok (DocumentStore.rows (tables w'.disk c)) := congrArg Outcome.result
    (run_engine_scan hserving hc' (LockManager.free_of_exclusive hfree .shared))
  have hentries := files_rebuild_iff ht hexact hnew hspec (tables_wf w'.disk c) htable
  constructor
  · rintro ⟨⟨im₁, rows, him₁, hrows, hsame⟩, -, -⟩
    obtain rfl := Option.some.inj (hmem.symm.trans him₁)
    obtain rfl := Except.ok.inj (hscan.symm.trans hrows)
    exact hentries.mp hsame
  · intro hkeys
    refine ⟨⟨_, _, hmem, hscan, hentries.mpr hkeys⟩, fun field hfield => ?_, ?_⟩
    · obtain ⟨r, hr, hkey⟩ := Option.map_eq_some_iff.mp hkeys
      have hlive : (tables w'.disk c).liveRow i = some r := by
        rw [htable, Table.liveRow_set, if_pos rfl]
        exact hr
      obtain ⟨hmemr, hid⟩ := (Table.liveRow_eq_some_iff_rows (tables_wf w'.disk c)).mp hlive
      have hspecs : ∃ spec ∈ im.specs, spec.fields = [field] := ⟨spec, hspec, hfield⟩
      have hhas : ((WriteOp.insert c i d).newIndexes (tables w.disk c) im).hasIndexFor field =
          true := by
        apply IndexManager.hasIndexFor_of_mem
        rwa [WriteOp.specs_newIndexes]
      have hlookup : (StorageEngine.lookup c field (Doc.get r.doc field)).run env w' = _ :=
        run_lookup hserving hmem (Or.inl hhas) _
      rw [lookupIn, if_pos hhas] at hlookup
      refine ⟨_, _, r, hmemr, hid, hscan, congrArg Outcome.result hlookup, ?_⟩
      rw [IndexSpec.key_single hfield, IndexSpec.key_single hfield] at hkey
      exact mem_lookup_insert ht hexact.tidy hspecs hkey.symm
    · obtain ⟨hok₂, hchanged₂⟩ := perform_spec (.write (.delete c i)) hserving hmem hfree
      refine ⟨_, ?_, fun key =>
        files_delete ht hexact hnew hspec (tables_wf w'.disk c) htable hkeys⟩
      rw [Prog.exec_bind_ok hinsert]
      exact hchanged₂.get?_self

/-- A document with a `datetime` is not found under the text it is stored as. -/
theorem datetime_not_found :
    let d : Doc := OrdDict.ofList
      [("email", .scalar (.datetime ⟨⟨2020, 1, 2⟩, ⟨3, 4, 5, 0, none, false⟩⟩))]
    ¬KeyedAsStored onlyClient usersDb "users" "1" d ⟨["email"], true⟩ := by
  intro d h
  obtain ⟨rows, ids, r, hr, hid, hrows, hlookup, hmem⟩ := h.found "email" rfl
  have hrows' : (StorageEngine.scan "users").value onlyClient
      ((StorageEngine.insert "users" "1" d).exec onlyClient usersDb) =
        .ok [Record.ofDoc "1" d] := by decide
  obtain rfl := Except.ok.inj (hrows'.symm.trans hrows)
  obtain rfl := List.mem_singleton.mp hr
  have hlookup' : (StorageEngine.lookup "users" "email"
      (Doc.get (Record.ofDoc "1" d).doc "email")).value onlyClient
        ((StorageEngine.insert "users" "1" d).exec onlyClient usersDb) = .ok [] := by decide
  obtain rfl := Except.ok.inj (hlookup'.symm.trans hlookup)
  cases hmem

/-- A document with a `Decimal` in the field indexed and a `datetime` elsewhere. -/
theorem keyedAsStored_users :
    let d : Doc := OrdDict.ofList [("email", .scalar (.decimal (.finite false 150 (-2)))),
      ("born", .scalar (.datetime ⟨⟨2020, 1, 2⟩, ⟨3, 4, 5, 0, none, false⟩⟩))]
    KeyedAsStored onlyClient usersDb "users" "1" d ⟨["email"], true⟩ := by
  intro d
  have hexact : (IndexManager.new "users" [⟨["email"], true⟩]).Exact
      (tables usersDb.disk "users") := IndexManager.Exact.new (fun _ => rfl) _ _
  exact (keyedAsStored_iff usersDb_serving rfl hexact rfl rfl (by decide) d).mpr
    ⟨by decide, by decide⟩

end JsonpySql
