/-
JsonpySql/UnindexedLookups.lean

A lookup with an index, against a lookup without one.

Without an index a lookup compares the value looked up with the value of every
live document, by the interpreter's `==`.  With an index it takes the ids listed
under the printed value.  So the two agree where the value of every document
prints like the value looked up just if it equals it, and no id is listed for a
document that hides itself behind a `_deleted` of its own
(`lookup_agrees_iff`).
-/
import JsonpySql.Listings

namespace JsonpySql

open StorageEngine

/-! ### Hidden documents -/

/-- An id is listed for a document that was never to be seen: a write files the id
under the key of its document, and no write to the id from there on stores a
live document with this key. -/
def HiddenKey (ops : List WriteOp) (c i field key : String) : Prop :=
  ∃ earlier op later, ops = earlier ++ op :: later ∧ op.target = (c, i) ∧
    (∃ d, op.document = some d ∧ (Doc.get (withId d i) field).toStr = key) ∧
    ∀ op' ∈ op :: later, op'.target = (c, i) → keyIn field op'.line.slot ≠ some key

/-- What the direct calls leave of an id, in a collection that was empty. -/
def lastLine (ops : List WriteOp) (c i : String) : Option Record :=
  lineAfter (fun _ => OrdDict.empty) ops c i

section Histories

variable {T : String → Table} {ops : List WriteOp} {c i field key : String} {spec : IndexSpec}

/-- A native document is filed under the key it is stored with, if it is stored. -/
theorem WriteOp.filedKey_of_native {op : WriteOp} (hop : op.Native)
    (hstored : op.storedKey spec = some key) : op.filedKey spec = some key := by
  rw [WriteOp.storedKey, Option.map_eq_some_iff] at hstored
  obtain ⟨r, hslot, rfl⟩ := hstored
  obtain ⟨rfl, hlive⟩ := Record.slot_eq_some_iff.mp hslot
  rw [WriteOp.filedKey, WriteOp.line]
  rcases hd : op.document with _ | d
  · rw [WriteOp.line, hd] at hlive
    cases hlive
  · rw [Option.map_some, Record.doc_ofDoc (hop d hd)]

theorem lineAfter_of_empty (hT : T c = OrdDict.empty) : lineAfter T ops c i = lastLine ops c i := by
  rw [lineAfter, lastLine, lineAfter, hT]

/-- Where inserts meet no live document, what is left behind is what was hidden. -/
theorem leftBehind_fresh (hfields : spec.fields = [field])
    (hfresh : ∀ earlier d later, ops = earlier ++ .insert c i d :: later →
      lineAfter T earlier c i = none) :
    KeyStep.LeftBehind (directWriter.history spec ((T c).liveRow i)
        (ops.filter fun op => op.target = (c, i))) (IndexManager.keyOf spec (T c) i) key ↔
      HiddenKey ops c i field key := by
  refine (directWriter.leftBehind_history spec (fun op => op.target = (c, i)) _ ops key).trans ?_
  simp only [rowAfter_directWriter, map_key_eq_keyIn hfields]
  refine exists_congr fun earlier => exists_congr fun op => exists_congr fun later =>
    and_congr_right fun hops => and_congr_right fun htarget => and_congr_left fun _ => ?_
  have hforgets : ¬(op.isInsert = true ∧ keyIn field (lineAfter T earlier c i) = some key) := by
    rintro ⟨hinsert, hkey⟩
    cases op with
    | insert c' i' d =>
        obtain ⟨rfl, rfl⟩ := Prod.mk.inj htarget
        rw [hfresh earlier d later hops] at hkey
        cases hkey
    | update | delete => cases hinsert
  have hid : op.docId = i := (Prod.mk.inj htarget).2
  refine (or_iff_right hforgets).trans ?_
  show op.document.map (fun d => spec.key (withId d op.docId)) = some key ↔ _
  rw [Option.map_eq_some_iff, hid]
  simp only [IndexSpec.key_single hfields]

end Histories

/-! ### The two collections -/

section Runs

variable {env : Env} {w w₀ : Database} {ops : List WriteOp} {c field : String}
  {specs : List IndexSpec} {drop : Bool}

/-- Inserts that find nobody, read off the operations. -/
theorem InsertsFresh.lineAfter_eq (henv : env.Alone) (hw : Serving w) (hc : c ∈ w.mem.keys)
    (hreg : ∀ op ∈ ops, op.collection ∈ w.mem.keys)
    (h : InsertsFresh env c w (ops.map .write)) :
    ∀ earlier i d later, ops = earlier ++ .insert c i d :: later →
      lineAfter (tables w.disk) earlier c i = none := by
  induction ops generalizing w with
  | nil =>
      rintro earlier i d later hops
      exact absurd hops.symm (List.append_ne_nil_of_right_ne_nil _ (List.cons_ne_nil _ _))
  | cons op ops ih =>
      rintro (_ | ⟨op', earlier⟩) i d later hops
      · obtain ⟨rfl, rfl⟩ := List.cons.inj hops
        have hget := h.1 i d rfl
        rw [value_get henv hw hc] at hget
        exact Option.map_eq_none_iff.mp (Except.ok.inj hget)
      · obtain ⟨rfl, hrest⟩ := List.cons.inj hops
        have hopc : op.collection ∈ w.mem.keys := hreg op List.mem_cons_self
        obtain ⟨im, him⟩ := OrdDict.exists_get?_of_mem hopc
        obtain ⟨-, hchanged⟩ := changed_direct henv op hw him
        have hkeys : (op.direct.exec env w).mem.keys = w.mem.keys := hchanged.keys hopc
        have hnone := ih (hchanged.serving hopc hw) (hkeys ▸ hc)
          (fun op' hop' => hkeys ▸ hreg op' (List.mem_cons_of_mem _ hop')) h.2 earlier i d later
          hrest
        -- the documents after the first write are what the others start from
        rw [← liveRow_run] at hnone ⊢
        rw [List.map_cons, LastWins.run_cons]
        rw [hchanged.tables, ← store_put] at hnone
        exact hnone

/-- The writes to a new collection. -/
theorem Created.run_direct (h : Created w₀ w c specs) (henv : env.Alone) (hw₀ : Serving w₀)
    (hreg : ∀ op ∈ ops, op.collection = c ∨ op.collection ∈ w₀.mem.keys) :
    (ops.forM WriteOp.direct).value env w = .ok () ∧
      Serving ((ops.forM WriteOp.direct).exec env w) ∧
      (ops.foldl directWriter.step (Listing.exact (tables w.disk))).Shows c
        ((ops.forM WriteOp.direct).exec env w) ∧
      (∃ im, ((ops.forM WriteOp.direct).exec env w).mem.get? c = some im ∧ im.specs = specs) ∧
      ∀ i, (tables ((ops.forM WriteOp.direct).exec env w).disk c).liveRow i = lastLine ops c i := by
  obtain ⟨im, him, hspecs, hexact⟩ := h.indexed
  have hshows : (Listing.exact (tables w.disk)).Shows c w :=
    .of_exact fun im' him' => Option.some.inj (him.symm.trans him') ▸ hexact
  obtain ⟨hok, hw', hshows', hcatalog⟩ := hshows.run_direct henv (h.serving hw₀)
    fun op hop => h.mem_keys (hreg op hop)
  refine ⟨hok, hw', hshows', hspecs ▸ exists_of_catalog (hcatalog ▸ get?_catalog him), fun i => ?_⟩
  rw [hshows'.tables_eq, directWriter.foldl_table]
  exact (liveRow_run (tables w.disk) ops c i).trans (lineAfter_of_empty h.table)

/-- Without an index on the field, a lookup compares values. -/
theorem IndexManager.mem_lookupIn_unindexed {im : IndexManager} {t : Table} (ht : t.WF)
    (hplain : ¬∃ spec ∈ im.specs, spec.fields = [field]) {v : PyVal} {i : String} :
    i ∈ lookupIn im t field v ↔
      ∃ r, t.liveRow i = some r ∧ (Doc.get r.doc field).eq v = true := by
  have hnone : im.hasIndexFor field = false := by
    rw [IndexManager.hasIndexFor, IndexManager.findIndexFor, Option.isSome_map,
      Option.isSome_eq_false_iff, Option.isNone_iff_eq_none, List.find?_eq_none]
    exact fun e he hfields =>
      hplain ⟨e.1, List.mem_map_of_mem he, of_decide_eq_true hfields⟩
  simp only [lookupIn, hnone, Bool.false_eq_true, if_false, List.mem_filterMap, List.mem_filter]
  constructor
  · rintro ⟨r, ⟨hr, heq⟩, hid⟩
    exact ⟨r, (Table.liveRow_eq_some_iff_rows ht).mpr ⟨hr, hid⟩, heq⟩
  · rintro ⟨r, hrow, heq⟩
    obtain ⟨hr, hid⟩ := (Table.liveRow_eq_some_iff_rows ht).mp hrow
    exact ⟨r, ⟨hr, heq⟩, hid⟩

theorem value_lookup_unindexed (henv : env.Alone) (hw : Serving w) {im : IndexManager}
    (him : w.mem.get? c = some im) (hplain : ¬∃ spec ∈ im.specs, spec.fields = [field])
    (v : PyVal) : ∃ ids, (StorageEngine.lookup c field v).value env w = .ok ids ∧
      ∀ i, i ∈ ids ↔ ∃ r, (tables w.disk c).liveRow i = some r ∧
        (Doc.get r.doc field).eq v = true :=
  ⟨_, value_lookup henv hw him field v, fun _ =>
    IndexManager.mem_lookupIn_unindexed (tables_wf _ _) hplain⟩

/-- With an index on the field, a lookup in a collection made so yields the ids of
the live documents whose value prints like the one looked up, and those with
such a hidden key. -/
theorem Created.value_lookup_indexed (h : Created w₀ w c specs) (henv : env.Alone)
    (hw₀ : Serving w₀) (hreg : ∀ op ∈ ops, op.collection = c ∨ op.collection ∈ w₀.mem.keys)
    (hnative : ∀ op ∈ ops, op.Native) (hfresh : InsertsFresh env c w (ops.map .write))
    (hindexed : ∃ spec ∈ specs, spec.fields = [field]) (v : PyVal) :
    ∃ ids, (StorageEngine.lookup c field v).value env ((ops.forM WriteOp.direct).exec env w) =
        .ok ids ∧
      ∀ i, i ∈ ids ↔ keyIn field (lastLine ops c i) = some v.toStr ∨
        HiddenKey ops c i field v.toStr := by
  obtain ⟨-, hw', hshows, ⟨im, him, rfl⟩, -⟩ := h.run_direct henv hw₀ hreg
  obtain ⟨spec, hfind⟩ := exists_find_spec.mp hindexed
  have hfields := fields_of_find hfind
  have hnone := InsertsFresh.lineAfter_eq henv (h.serving hw₀) (h.mem_keys (Or.inl rfl))
    (fun op hop => h.mem_keys (hreg op hop)) hfresh
  obtain ⟨ids, hids, hlisted⟩ := hshows.value_lookup henv hw' him hfind v
  refine ⟨ids, hids, fun i => (hlisted i).trans ?_⟩
  have hiff := directWriter.foldl_exact_iff ops (tables w.disk) c spec i
    (fun op hop key => WriteOp.filedKey_of_native (hnative op hop)) v.toStr
  refine hiff.trans (or_congr ?_ ?_)
  · rw [map_key_eq_keyIn hfields, ← lineAfter_of_empty h.table, ← rowAfter_directWriter]
    rfl
  · exact leftBehind_fresh hfields fun earlier d later => hnone earlier i d later

/-- **When an index makes no difference.**  Make a collection by inserts of ids
that are not live, updates and deletions of native documents, once with an index
on a field and once without: a lookup of the field yields the same ids just if,
for every id, its document has a value equal to the one looked up exactly where
its value prints like it, or where the id has such a hidden key. -/
theorem lookup_agrees_iff {specs₁ specs₂ : List IndexSpec} (henv : env.Alone) (hw₀ : Serving w₀)
    (hok₁ : (createCollection c specs₁ drop).value env w₀ = .ok ())
    (hok₂ : (createCollection c specs₂ drop).value env w₀ = .ok ())
    (hindexed : ∃ spec ∈ specs₁, spec.fields = [field])
    (hplain : ¬∃ spec ∈ specs₂, spec.fields = [field])
    (hreg : ∀ op ∈ ops, op.collection = c ∨ op.collection ∈ w₀.mem.keys)
    (hnative : ∀ op ∈ ops, op.Native)
    (hfresh : InsertsFresh env c ((createCollection c specs₁ drop).exec env w₀)
      (ops.map .write)) (v : PyVal) :
    let run₁ := createCollection c specs₁ drop >>= fun _ => ops.forM WriteOp.direct
    let run₂ := createCollection c specs₂ drop >>= fun _ => ops.forM WriteOp.direct
    run₁.value env w₀ = .ok () ∧ run₂.value env w₀ = .ok () ∧
      (SameIds env (run₁.exec env w₀) (run₂.exec env w₀) c field v ↔
        ∀ i, (∃ r, lastLine ops c i = some r ∧ (Doc.get r.doc field).eq v = true) ↔
          keyIn field (lastLine ops c i) = some v.toStr ∨ HiddenKey ops c i field v.toStr) := by
  intro run₁ run₂
  have h₁ := createCollection_spec hok₁
  have h₂ := createCollection_spec hok₂
  obtain ⟨hrun₁, -⟩ := h₁.run_direct henv hw₀ hreg
  obtain ⟨hrun₂, hw₂, -, ⟨im₂, him₂, rfl⟩, hrows⟩ := h₂.run_direct henv hw₀ hreg
  refine ⟨(Prog.value_bind_ok hok₁).trans hrun₁, (Prog.value_bind_ok hok₂).trans hrun₂, ?_⟩
  rw [Prog.exec_bind_ok hok₁, Prog.exec_bind_ok hok₂]
  obtain ⟨ids₁, hids₁, hmem₁⟩ :=
    h₁.value_lookup_indexed henv hw₀ hreg hnative hfresh hindexed v
  obtain ⟨ids₂, hids₂, hmem₂⟩ := value_lookup_unindexed henv hw₂ him₂ hplain v
  simp only [hrows] at hmem₂
  constructor
  · rintro ⟨ids₁', ids₂', hids₁', hids₂', hsame⟩ i
    obtain rfl := Except.ok.inj (hids₁.symm.trans hids₁')
    obtain rfl := Except.ok.inj (hids₂.symm.trans hids₂')
    exact (hmem₂ i).symm.trans ((hsame i).symm.trans (hmem₁ i))
  · intro h
    exact ⟨ids₁, ids₂, hids₁, hids₂, fun i => (hmem₁ i).trans ((h i).symm.trans (hmem₂ i).symm)⟩

end Runs

/-! ### Numbers and strings -/

/-- A live document of the content was written by one of the operations. -/
theorem exists_of_lastLine {ops : List WriteOp} {c i : String} {r : Record}
    (h : lastLine ops c i = some r) : ∃ op ∈ ops, op.target = (c, i) ∧ op.line.slot = some r := by
  rw [lastLine, lineAfter] at h
  generalize hlast : (ops.filter fun op => op.target = (c, i)).getLast? = last at h
  rcases last with _ | op
  · cases h
  · obtain ⟨hop, htarget⟩ := List.mem_filter.mp (List.mem_of_getLast? hlast)
    exact ⟨op, hop, of_decide_eq_true htarget, h⟩

/-- Where the documents hide nothing and the field holds strings, a string is
found alike. -/
theorem agrees_of_strings {ops : List WriteOp} {field : String} (hclean : ∀ op ∈ ops, op.Clean)
    (hstr : ∀ op ∈ ops, ∀ d ∈ op.document, ∃ t, Doc.get (withId d op.docId) field = .str t)
    (c s i : String) :
    (∃ r, lastLine ops c i = some r ∧ (Doc.get r.doc field).eq (.str s) = true) ↔
      keyIn field (lastLine ops c i) = some s ∨ HiddenKey ops c i field s := by
  have hhidden : ¬HiddenKey ops c i field s := by
    rintro ⟨earlier, op, later, rfl, htarget, ⟨d, hd, hkey⟩, hnever⟩
    have hop := hclean op (List.mem_append_right _ List.mem_cons_self)
    obtain ⟨hnone, -⟩ | ⟨d', hd', hslot, hline⟩ := WriteOp.slot_line hop
    · cases hd.symm.trans hnone
    · obtain rfl := Option.some.inj (hd.symm.trans hd')
      have hid : op.docId = i := (Prod.mk.inj htarget).2
      refine hnever op List.mem_cons_self htarget ?_
      rw [hslot, keyIn, Option.map_some, hline, hid, hkey]
  rw [or_iff_left hhidden, keyIn, Option.map_eq_some_iff]
  refine exists_congr fun r => and_congr_right fun hr => ?_
  -- the document was written with a string in the field
  obtain ⟨op, hop, -, hslot⟩ := exists_of_lastLine hr
  obtain ⟨-, hnone⟩ | ⟨d, hd, hslot', hline⟩ := WriteOp.slot_line (hclean op hop)
  · cases hslot.symm.trans hnone
  · obtain rfl := Option.some.inj (hslot.symm.trans hslot')
    obtain ⟨t, ht⟩ := hstr op hop d hd
    rw [hline, ht, PyVal.eq_str, PyVal.toStr_str, decide_eq_true_eq]

/-- A string is found under the number that prints like it, where there is an
index. -/
theorem lookup_disagrees :
    let ops : List WriteOp := [.insert "users" "1" (OrdDict.ofList [("age", .int 1)])]
    let run₁ := createCollection "users" [⟨["age"], false⟩] false >>= fun _ =>
      ops.forM WriteOp.direct
    let run₂ := createCollection "users" [] false >>= fun _ => ops.forM WriteOp.direct
    (∀ op ∈ ops, op.Native) ∧
      InsertsFresh onlyClient "users"
        ((createCollection "users" [⟨["age"], false⟩] false).exec onlyClient emptyDb)
        (ops.map .write) ∧
      ¬SameIds onlyClient (run₁.exec onlyClient emptyDb) (run₂.exec onlyClient emptyDb)
        "users" "age" (.str "1") := by
  intro ops run₁ run₂
  have hnative : ∀ op ∈ ops, op.Native := by
    rintro op hop d hd
    obtain rfl := List.mem_singleton.mp hop
    cases hd
    rfl
  refine ⟨hnative, ⟨fun i d h => by cases h; rfl, trivial⟩, ?_⟩
  rintro ⟨ids₁, ids₂, hids₁, hids₂, hsame⟩
  have hfound : ["1"] = ids₁ := Except.ok.inj hids₁
  have hnone : [] = ids₂ := Except.ok.inj hids₂
  have hmem := (hsame "1").mp (hfound ▸ List.mem_cons_self)
  rw [← hnone] at hmem
  cases hmem

/-- A string is found alike in a field of strings. -/
theorem lookup_agrees_users :
    let ops : List WriteOp := [.insert "users" "1" (OrdDict.ofList [("name", .str "ann")]),
      .update "users" "1" (OrdDict.ofList [("name", .str "bob")]), .delete "users" "1",
      .insert "users" "1" (OrdDict.ofList [("name", .str "ann")])]
    let run₁ := createCollection "users" [⟨["name"], false⟩] false >>= fun _ =>
      ops.forM WriteOp.direct
    let run₂ := createCollection "users" [] false >>= fun _ => ops.forM WriteOp.direct
    SameIds onlyClient (run₁.exec onlyClient emptyDb) (run₂.exec onlyClient emptyDb)
      "users" "name" (.str "ann") := by
  intro ops run₁ run₂
  have hclean : ∀ op ∈ ops, op.Clean := by decide
  have hfresh : InsertsFresh onlyClient "users"
      ((createCollection "users" [⟨["name"], false⟩] false).exec onlyClient emptyDb)
      (ops.map .write) := by
    refine ⟨?_, ?_, ?_, ?_, trivial⟩ <;>
    · intro i d h
      cases h <;> rfl
  have hstr : ∀ op ∈ ops, ∀ d ∈ op.document,
      ∃ t, Doc.get (withId d op.docId) "name" = .str t := by
    simp only [ops, List.forall_mem_cons]
    refine ⟨?_, ?_, ?_, ?_, nofun⟩ <;>
    · rintro d hd
      cases hd <;> exact ⟨_, rfl⟩
  exact (lookup_agrees_iff onlyClient_alone emptyDb_serving rfl rfl
    ⟨_, List.mem_cons_self, rfl⟩ (fun ⟨_, h, _⟩ => List.not_mem_nil h)
    (fun op hop => Or.inl (by revert op; decide)) (fun op hop d hd => (hclean op hop d hd).1) hfresh
    (.str "ann")).2.2.mpr fun i => agrees_of_strings hclean hstr "users" "ann" i

end JsonpySql
