/-
JsonpySql/CommittedIndexes.lean

The indexes after a transaction, against those after the direct calls.

Both ways store the same documents, and both let an insert leave the key of the
document it replaces listed.  But a transaction performs only the last operation
on every id, so of its inserts only a last one does this; and its updates and
deletions take an empty document for none and leave the key of that listed too.
So the two agree just where they leave the same keys behind
(`committed_agrees_iff`).
-/
import JsonpySql.Listings

namespace JsonpySql

open StorageEngine

/-! ### What the two ways leave behind -/

/-- The direct calls leave a key of an id listed: an insert finds a document with
it, and no operation on the id from there on stores one. -/
def DirectLeaves (T : String → Table) (ops : List WriteOp) (c i field key : String) : Prop :=
  ∃ earlier op later, ops = earlier ++ op :: later ∧ op.target = (c, i) ∧
    op.isInsert = true ∧ keyIn field (lineAfter T earlier c i) = some key ∧
    ∀ op' ∈ op :: later, op'.target = (c, i) → keyIn field op'.line.slot ≠ some key

/-- A transaction leaves a key of an id listed: it is that of the document before,
the last operation on the id does not store it, and this operation is an insert
or the document is empty. -/
def CommitLeaves (T : String → Table) (ops : List WriteOp) (c i field key : String) : Prop :=
  ∃ op, (ops.filter fun op => op.target = (c, i)).getLast? = some op ∧
    (op.isInsert = true ∨ (T c).get i = some OrdDict.empty) ∧
    keyIn field ((T c).liveRow i) = some key ∧ keyIn field op.line.slot ≠ some key

/-- Every lookup of an indexed field yields the same ids. -/
def SameIndexedIds (env : Env) (w w₁ w₂ : Database) : Prop :=
  ∀ c im, w.mem.get? c = some im → ∀ field, (∃ spec ∈ im.specs, spec.fields = [field]) → ∀ v,
    SameIds env w₁ w₂ c field v

section Histories

variable {T : String → Table} {ops : List WriteOp} {c i field key : String} {spec : IndexSpec}

/-- A clean write files its id under the key it stores. -/
theorem WriteOp.filedKey_of_clean {op : WriteOp} (hop : op.Clean) (spec : IndexSpec) :
    op.filedKey spec = op.storedKey spec := by
  rw [WriteOp.filedKey, WriteOp.storedKey]
  obtain ⟨hdoc, hslot⟩ | ⟨d, hdoc, hslot, hline⟩ := WriteOp.slot_line hop
  · rw [hdoc, hslot]
    rfl
  · rw [hdoc, hslot, Option.map_some, Option.map_some, hline]

/-- The keys the direct calls leave behind. -/
theorem leftBehind_direct (hclean : ∀ op ∈ ops, op.Clean) (hfields : spec.fields = [field]) :
    KeyStep.LeftBehind (directWriter.history spec ((T c).liveRow i)
        (ops.filter fun op => op.target = (c, i))) (IndexManager.keyOf spec (T c) i) key ↔
      DirectLeaves T ops c i field key := by
  refine (directWriter.leftBehind_history spec (fun op => op.target = (c, i)) _ ops key).trans ?_
  simp only [rowAfter_directWriter, map_key_eq_keyIn hfields]
  refine exists_congr fun earlier => exists_congr fun op => exists_congr fun later =>
    and_congr_right fun hops => and_congr_right fun htarget => ?_
  rw [← and_assoc]
  refine and_congr_left fun hnever => or_iff_left fun hfiled => ?_
  -- what a write files the id under it stores
  have hop : op.Clean := hclean op (hops ▸ List.mem_append_right _ List.mem_cons_self)
  apply hnever op List.mem_cons_self htarget
  rw [← map_key_eq_keyIn hfields]
  exact (WriteOp.filedKey_of_clean hop spec).symm.trans hfiled

/-- What reading the log leaves for an id: the entry of the last operation. -/
theorem filter_dedup_walEntries (ops : List WriteOp) (c i : String) :
    (WAL.dedup (walEntries ops)).filter (fun e => e.target = (c, i)) =
      (((ops.filter fun op => op.target = (c, i)).getLast?).map
        fun op => op.entry.viaJson).toList := by
  have hfilter : (walEntries ops).filter (fun e => e.target = (c, i)) =
      (ops.filter fun op => op.target = (c, i)).map fun op => op.entry.viaJson := by
    rw [walEntries, List.filter_map]
    refine congrArg _ (List.filter_congr fun op _ => ?_)
    have htarget : op.entry.viaJson.target = op.target := by cases op <;> rfl
    rw [Function.comp_apply, htarget]
  rw [WAL.filter_dedup, hfilter, List.getLast?_map]

theorem slot_line_entry (op : WriteOp) : op.entry.viaJson.line.slot = op.line.slot :=
  congrArg Prod.snd (WALEntry.toPut_entry op)

theorem filedKey_entry {op : WriteOp} (hop : op.Clean) (spec : IndexSpec) :
    op.entry.viaJson.filedKey spec = op.storedKey spec := by
  rw [WriteOp.viaJson_entry hop.native, ← WriteOp.filedKey_of_clean hop]
  cases op <;> rfl

theorem rowAfter_logWriter (T : String → Table) (ops : List WriteOp) (c i : String) :
    logWriter.rowAfter ((T c).liveRow i)
        ((WAL.dedup (walEntries ops)).filter fun e => e.target = (c, i)) =
      lineAfter T ops c i := by
  rw [filter_dedup_walEntries, lineAfter]
  generalize (ops.filter fun op => op.target = (c, i)).getLast? = last
  rcases last with _ | op
  · rfl
  · exact slot_line_entry op

/-- The keys a transaction leaves behind. -/
theorem leftBehind_commit (hclean : ∀ op ∈ ops, op.Clean) (hfields : spec.fields = [field]) :
    KeyStep.LeftBehind (logWriter.history spec ((T c).liveRow i)
        ((WAL.dedup (walEntries ops)).filter fun e => e.target = (c, i)))
        (IndexManager.keyOf spec (T c) i) key ↔
      CommitLeaves T ops c i field key := by
  rw [filter_dedup_walEntries, CommitLeaves]
  generalize hlast : (ops.filter fun op => op.target = (c, i)).getLast? = last
  rcases last with _ | op
  · refine iff_of_false KeyStep.leftBehind_nil ?_
    rintro ⟨op, hop, -⟩
    cases hop
  · have hop : op.Clean := hclean op (List.mem_of_mem_filter (List.mem_of_getLast? hlast))
    have hinsert : op.entry.viaJson.op = .insert ↔ op.isInsert = true := by
      cases op <;> simp [WriteOp.entry, WALEntry.viaJson, WriteOp.isInsert]
    have hstored : op.storedKey spec = keyIn field op.line.slot := map_key_eq_keyIn hfields _
    have hkey : (op.entry.viaJson.line.slot.map fun r => spec.key r.doc) =
        keyIn field op.line.slot := by rw [slot_line_entry, map_key_eq_keyIn hfields]
    have hforgets : logWriter.forgets op.entry.viaJson ((T c).liveRow i) = true ↔
        op.isInsert = true ∨ (T c).get i = some OrdDict.empty := by
      rw [Table.get_eq_map_liveRow, ← hinsert]
      show (decide _ || decide _) = true ↔ _
      rw [Bool.or_eq_true, decide_eq_true_iff, decide_eq_true_iff]
    show KeyStep.LeftBehind [logWriter.keyStep spec ((T c).liveRow i) op.entry.viaJson] _ _ ↔ _
    rw [KeyStep.leftBehind_cons, or_iff_left KeyStep.leftBehind_nil, List.forall_mem_singleton]
    show ((logWriter.forgets _ _ = true ∧ _ ∨ op.entry.viaJson.filedKey spec = some key) ∧
      (op.entry.viaJson.line.slot.map fun r => spec.key r.doc) ≠ some key) ↔ _
    rw [hforgets, IndexManager.keyOf, map_key_eq_keyIn hfields, filedKey_entry hop, hstored, hkey]
    simp only [Option.some.injEq, exists_eq_left']
    constructor
    · rintro ⟨⟨hforgotten, hkey⟩ | hkey, hne⟩
      · exact ⟨hforgotten, hkey, hne⟩
      · exact absurd hkey hne
    · rintro ⟨hforgotten, hkey, hne⟩
      exact ⟨Or.inl ⟨hforgotten, hkey⟩, hne⟩

/-- What an index lists after the direct calls. -/
theorem listed_direct_iff (hclean : ∀ op ∈ ops, op.Clean) (hfields : spec.fields = [field]) :
    (ops.foldl directWriter.step (Listing.exact T)).listed c spec i key ↔
      keyIn field (lineAfter T ops c i) = some key ∨ DirectLeaves T ops c i field key := by
  rw [directWriter.foldl_exact_iff ops T c spec i fun op hop key hkey =>
      (WriteOp.filedKey_of_clean (hclean op hop) spec).trans hkey]
  exact or_congr (by rw [← map_key_eq_keyIn hfields, ← rowAfter_directWriter]; rfl)
    (leftBehind_direct hclean hfields)

/-- What an index lists after a transaction. -/
theorem listed_commit_iff (hclean : ∀ op ∈ ops, op.Clean) (hfields : spec.fields = [field]) :
    ((WAL.dedup (walEntries ops)).foldl logWriter.step (Listing.exact T)).listed c spec i key ↔
      keyIn field (lineAfter T ops c i) = some key ∨ CommitLeaves T ops c i field key := by
  have hfiled : ∀ e ∈ WAL.dedup (walEntries ops), ∀ key,
      ((logWriter.slot e).map fun r => spec.key r.doc) = some key →
        logWriter.filedKey e spec = some key := by
    intro e he key hkey
    obtain ⟨op, hop, rfl⟩ := mem_dedup_walEntries he
    refine (filedKey_entry (hclean op hop) spec).trans ?_
    rw [WriteOp.storedKey, ← slot_line_entry]
    exact hkey
  rw [logWriter.foldl_exact_iff _ T c spec i hfiled]
  exact or_congr (by rw [← map_key_eq_keyIn hfields, ← rowAfter_logWriter]; rfl)
    (leftBehind_commit hclean hfields)

/-- An index lists the same after both, just if they leave the same behind. -/
theorem listed_congr_iff (hclean : ∀ op ∈ ops, op.Clean) (hfields : spec.fields = [field]) :
    (((WAL.dedup (walEntries ops)).foldl logWriter.step (Listing.exact T)).listed c spec i key ↔
        (ops.foldl directWriter.step (Listing.exact T)).listed c spec i key) ↔
      (DirectLeaves T ops c i field key ↔ CommitLeaves T ops c i field key) := by
  have hdirect : DirectLeaves T ops c i field key →
      keyIn field (lineAfter T ops c i) ≠ some key := fun h => by
    rw [← map_key_eq_keyIn hfields, ← rowAfter_directWriter]
    exact directWriter.rowAfter_ne_of_leftBehind ((leftBehind_direct hclean hfields).mpr h)
  have hcommit : CommitLeaves T ops c i field key →
      keyIn field (lineAfter T ops c i) ≠ some key := fun h => by
    rw [← map_key_eq_keyIn hfields, ← rowAfter_logWriter]
    exact logWriter.rowAfter_ne_of_leftBehind ((leftBehind_commit hclean hfields).mpr h)
  rw [listed_direct_iff hclean hfields, listed_commit_iff hclean hfields]
  by_cases hlast : keyIn field (lineAfter T ops c i) = some key
  · exact iff_of_true (iff_of_true (Or.inl hlast) (Or.inl hlast))
      (iff_of_false (fun h => hdirect h hlast) fun h => hcommit h hlast)
  · rw [or_iff_right hlast, or_iff_right hlast]
    exact Iff.comm

end Histories

/-! ### The two runs -/

variable {env : Env} {w w₁ w₂ : Database} {ops : List WriteOp}

/-- Where indexes list, lookups yield the same just if they list the same. -/
theorem sameIndexedIds_iff {s₁ s₂ : Listing} (henv : env.Alone) (hw₁ : Serving w₁)
    (hw₂ : Serving w₂) (h₁ : ∀ c, s₁.Shows c w₁) (h₂ : ∀ c, s₂.Shows c w₂)
    (hcatalog₁ : catalog w₁.mem = catalog w.mem) (hcatalog₂ : catalog w₂.mem = catalog w.mem) :
    SameIndexedIds env w w₁ w₂ ↔ ∀ c im, w.mem.get? c = some im → ∀ field spec,
      im.specs.find? (fun spec => spec.fields = [field]) = some spec → ∀ i key,
      s₁.listed c spec i key ↔ s₂.listed c spec i key := by
  have hkept : ∀ c im, w.mem.get? c = some im → ∀ w' : Database,
      catalog w'.mem = catalog w.mem → ∃ im', w'.mem.get? c = some im' ∧ im'.specs = im.specs :=
    fun c im him w' hcatalog => exists_of_catalog (hcatalog ▸ get?_catalog him)
  constructor
  · intro h c im him field spec hfind i key
    obtain ⟨im₁, him₁, hspecs₁⟩ := hkept c im him w₁ hcatalog₁
    obtain ⟨im₂, him₂, hspecs₂⟩ := hkept c im him w₂ hcatalog₂
    obtain ⟨ids₁, ids₂, hids₁, hids₂, hsame⟩ :=
      h c im him field (exists_find_spec.mpr ⟨spec, hfind⟩) (.str key)
    obtain ⟨ids₁', hids₁', hlisted₁⟩ :=
      (h₁ c).value_lookup henv hw₁ him₁ (hspecs₁ ▸ hfind) (.str key)
    obtain ⟨ids₂', hids₂', hlisted₂⟩ :=
      (h₂ c).value_lookup henv hw₂ him₂ (hspecs₂ ▸ hfind) (.str key)
    obtain rfl := Except.ok.inj (hids₁.symm.trans hids₁')
    obtain rfl := Except.ok.inj (hids₂.symm.trans hids₂')
    rw [PyVal.toStr_str] at hlisted₁ hlisted₂
    exact (hlisted₁ i).symm.trans ((hsame i).trans (hlisted₂ i))
  · intro h c im him field hspec v
    obtain ⟨spec, hfind⟩ := exists_find_spec.mp hspec
    obtain ⟨im₁, him₁, hspecs₁⟩ := hkept c im him w₁ hcatalog₁
    obtain ⟨im₂, him₂, hspecs₂⟩ := hkept c im him w₂ hcatalog₂
    obtain ⟨ids₁, hids₁, hlisted₁⟩ := (h₁ c).value_lookup henv hw₁ him₁ (hspecs₁ ▸ hfind) v
    obtain ⟨ids₂, hids₂, hlisted₂⟩ := (h₂ c).value_lookup henv hw₂ him₂ (hspecs₂ ▸ hfind) v
    refine ⟨ids₁, ids₂, hids₁, hids₂, fun i => ?_⟩
    rw [hlisted₁, hlisted₂]
    exact h c im him field spec hfind i v.toStr

/-- From exact indexes, the two ways leave the same ids just if they leave the
same keys behind. -/
theorem sameIndexedIds_committed_iff {file : String} (henv : env.Alone) (hw : Serving w)
    (hfresh : w.disk.wal.get? file = none) (hne : ops ≠ [])
    (hreg : ∀ op ∈ ops, op.collection ∈ w.mem.keys) (hclean : ∀ op ∈ ops, op.Clean)
    (hexact : ∀ c im, w.mem.get? c = some im → im.Exact (tables w.disk c)) :
    SameIndexedIds env w ((Transaction.whole file ops).exec env w)
        ((ops.forM WriteOp.direct).exec env w) ↔
      ∀ c im, w.mem.get? c = some im → ∀ field, (∃ spec ∈ im.specs, spec.fields = [field]) →
        ∀ i key, DirectLeaves (tables w.disk) ops c i field key ↔
          CommitLeaves (tables w.disk) ops c i field key := by
  have hshows := fun c => Listing.Shows.of_exact (hexact c)
  have hcommit := fun c => (hshows c).run_whole env hw hfresh hne hreg
  have hdirect := fun c => (hshows c).run_direct henv hw hreg
  obtain ⟨-, hw₁, -, hcatalog₁⟩ := hcommit ""
  obtain ⟨-, hw₂, -, hcatalog₂⟩ := hdirect ""
  rw [sameIndexedIds_iff henv hw₁ hw₂ (fun c => (hcommit c).2.2.1) (fun c => (hdirect c).2.2.1)
    hcatalog₁ hcatalog₂]
  refine forall_congr' fun c => forall_congr' fun im => forall_congr' fun _ =>
    forall_congr' fun field => ?_
  constructor
  · intro h hspec
    obtain ⟨spec, hfind⟩ := exists_find_spec.mp hspec
    exact fun i key => (listed_congr_iff hclean (fields_of_find hfind)).mp (h spec hfind i key)
  · intro h spec hfind i key
    exact (listed_congr_iff hclean (fields_of_find hfind)).mpr
      (h (exists_find_spec.mpr ⟨spec, hfind⟩) i key)

/-- **When a transaction leaves the indexes that the direct calls leave.**  From
exact indexes, commit a list of operations, or perform them one by one: every
lookup of an indexed field yields the same ids just if, for every id and key,
an insert of the list forgets a document with the key, and no operation from it
on stores one, exactly where the last operation on the id is an insert that
replaces a document with another key, or replaces or deletes an empty one. -/
theorem committed_agrees_iff {file : String} (henv : env.Alone) (hw : Serving w)
    (hfresh : w.disk.wal.get? file = none) (hne : ops ≠ [])
    (hreg : ∀ op ∈ ops, op.collection ∈ w.mem.keys) (hclean : ∀ op ∈ ops, op.Clean)
    (hexact : ∀ c im, w.mem.get? c = some im → im.Exact (tables w.disk c)) :
    (Transaction.whole file ops).value env w = .ok () ∧
      (ops.forM WriteOp.direct).value env w = .ok () ∧
      (SameIndexedIds env w ((Transaction.whole file ops).exec env w)
          ((ops.forM WriteOp.direct).exec env w) ↔
        ∀ c im, w.mem.get? c = some im → ∀ field, (∃ spec ∈ im.specs, spec.fields = [field]) →
          ∀ i key, DirectLeaves (tables w.disk) ops c i field key ↔
            CommitLeaves (tables w.disk) ops c i field key) := by
  have hshows := Listing.Shows.of_exact (hexact "")
  refine ⟨(hshows.run_whole env hw hfresh hne hreg).1, (hshows.run_direct henv hw hreg).1, ?_⟩
  exact sameIndexedIds_committed_iff henv hw hfresh hne hreg hclean hexact

/-- One live document, which is empty. -/
def emptyUserDb : Database :=
  (performAll [.write (.insert "users" "1" OrdDict.empty)]).exec onlyClient usersDb

theorem usersDb_exact :
    ∀ c im, usersDb.mem.get? c = some im → im.Exact (tables usersDb.disk c) := by
  intro c im him
  have hkeys : usersDb.mem.keys = ["users"] := rfl
  obtain rfl : c = "users" := OrdDict.eq_of_get?_of_keys hkeys him
  obtain rfl := Option.some.inj him
  exact IndexManager.Exact.new (fun _ => rfl) _ _

theorem emptyUserDb_exact : Serving emptyUserDb ∧
    ∀ c im, emptyUserDb.mem.get? c = some im → im.Exact (tables emptyUserDb.disk c) := by
  have hindexed : Indexed IndexManager.Exact "users" [⟨["email"], true⟩] usersDb :=
    ⟨_, rfl, rfl, usersDb_exact "users" _ rfl⟩
  have hfresh : InsertsFresh onlyClient "users" usersDb
      [.write (.insert "users" "1" OrdDict.empty)] := ⟨fun i d h => by cases h; rfl, trivial⟩
  obtain ⟨-, hw, im, him, -, hexact⟩ := performAll_exact onlyClient_alone usersDb_serving
    (by decide) (by decide) hfresh hindexed
  refine ⟨hw, fun c im' him' => ?_⟩
  have hkeys : emptyUserDb.mem.keys = ["users"] := rfl
  obtain rfl : c = "users" := OrdDict.eq_of_get?_of_keys hkeys him'
  obtain rfl : im' = im := Option.some.inj (him'.symm.trans him)
  exact hexact

/-- An update of the empty document in a transaction leaves its key listed. -/
theorem committed_disagrees :
    let ops : List WriteOp := [.update "users" "1" (OrdDict.ofList [("email", .str "a")])]
    Serving emptyUserDb ∧
      (∀ c im, emptyUserDb.mem.get? c = some im → im.Exact (tables emptyUserDb.disk c)) ∧
      (∀ op ∈ ops, op.Clean) ∧
      ¬SameIndexedIds onlyClient emptyUserDb
        ((Transaction.whole "a.wal" ops).exec onlyClient emptyUserDb)
        ((ops.forM WriteOp.direct).exec onlyClient emptyUserDb) := by
  intro ops
  obtain ⟨hw, hexact⟩ := emptyUserDb_exact
  refine ⟨hw, hexact, by decide, fun h => ?_⟩
  have hiff := (sameIndexedIds_committed_iff onlyClient_alone hw rfl (List.cons_ne_nil _ _)
    (by decide) (by decide) hexact).mp h "users" _ rfl "email"
    ⟨⟨["email"], true⟩, List.mem_cons_self, rfl⟩ "1" "None"
  -- there is no insert, and the document before is empty
  obtain ⟨earlier, op, later, hops, -, hinsert, -⟩ := hiff.mpr
    ⟨_, rfl, Or.inr (by decide), by decide, by decide⟩
  have hop : op ∈ earlier ++ op :: later := List.mem_append_right _ List.mem_cons_self
  obtain rfl := List.mem_singleton.mp (hops ▸ hop)
  exact absurd hinsert (by decide)

/-- A document is created and changed. -/
theorem committed_agrees_users :
    let ops : List WriteOp := [.insert "users" "1" (OrdDict.ofList [("email", .str "a")]),
      .update "users" "1" (OrdDict.ofList [("email", .str "b")])]
    SameIndexedIds onlyClient usersDb ((Transaction.whole "a.wal" ops).exec onlyClient usersDb)
      ((ops.forM WriteOp.direct).exec onlyClient usersDb) := by
  intro ops
  refine (committed_agrees_iff onlyClient_alone usersDb_serving rfl (List.cons_ne_nil _ _)
    (by decide) (by decide) usersDb_exact).2.2.mpr fun c im _ field _ i key => ?_
  -- no document is live before
  have hrow : keyIn field ((tables usersDb.disk c).liveRow i) = none := by
    have hlines : (usersDb.disk.jsonl (jsonlPath c)).getD [] = [] := by
      show (if _ then some [] else none : Option (List Record)).getD [] = []
      split <;> rfl
    rw [tables, hlines]
    rfl
  refine iff_of_false ?_ ?_
  -- the insert is the first operation
  · rintro ⟨_ | ⟨op', earlier⟩, op, later, hops, -, hinsert, hkey, -⟩
    · cases hrow.symm.trans hkey
    · have hrest : [WriteOp.update "users" "1" (OrdDict.ofList [("email", .str "b")])] =
          earlier ++ op :: later := (List.cons.inj hops).2
      have hop : op ∈ earlier ++ op :: later := List.mem_append_right _ List.mem_cons_self
      obtain rfl := List.mem_singleton.mp (hrest ▸ hop)
      exact absurd hinsert (by decide)
  · rintro ⟨op, -, -, hkey, -⟩
    rw [hrow] at hkey
    cases hkey

end JsonpySql
