/-
JsonpySql/Streaming.lean

Deleting what a lookup yields while it yields.

`IndexManager.lookup` iterates over the list the index holds for the value, not
over a copy, and `StorageEngine.delete` takes the id out of this very list.  So
the ids behind the cursor move up by one under it, and a loop that deletes each
id before it asks for the next one gets every other match only.  The run of the
loop is described exactly (`streamEach_spec`); it deletes all matches if there
is at most one (`streaming_deletes_iff`).
-/
import JsonpySql.Executor
import JsonpySql.Refiling

/-! ### Every other element -/

/-- The elements at the even positions. -/
def evens {α : Type*} : List α → List α
  | [] => []
  | [a] => [a]
  | a :: _ :: l => a :: evens l

theorem mem_of_mem_evens {α : Type*} {a : α} {l : List α} (h : a ∈ evens l) : a ∈ l := by
  induction l using evens.induct with
  | case1 => exact h
  | case2 b => exact h
  | case3 b b' l ih =>
      rw [evens, List.mem_cons] at h
      rcases h with rfl | h
      · exact List.mem_cons_self
      · exact List.mem_cons_of_mem _ (List.mem_cons_of_mem _ (ih h))

theorem evens_cons {α : Type*} (a : α) (l : List α) : evens (a :: l) = a :: evens (l.drop 1) := by
  cases l with
  | nil => rfl
  | cons b l => rfl

/-- Removing the element under a cursor that then moves on passes the next one
over. -/
theorem drop_erase_of_drop {α : Type*} [DecidableEq α] {a : α} {l tail : List α} {n : ℕ}
    (hl : l.Nodup) (h : l.drop n = a :: tail) : (l.erase a).drop (n + 1) = tail.drop 1 := by
  have hsplit : l = l.take n ++ a :: tail := by rw [← h, List.take_append_drop]
  have hn : (l.take n).length = n := by
    refine List.length_take_of_le (le_of_not_gt fun hlt => ?_)
    rw [List.drop_eq_nil_of_le hlt.le] at h
    cases h
  have hnot : a ∉ l.take n := by
    rw [hsplit] at hl
    exact fun ha => List.disjoint_of_nodup_append hl ha List.mem_cons_self
  calc (l.erase a).drop (n + 1) = (l.take n ++ tail).drop (n + 1) := by
        conv_lhs => rw [hsplit, List.erase_append_right _ hnot, List.erase_cons_head]
    _ = tail.drop 1 := by rw [List.drop_append, hn]; simp [hn]

/-- Every other element is every element just of a list with at most one. -/
theorem forall_mem_evens_iff {α : Type*} {l : List α} (hl : l.Nodup) :
    (∀ a ∈ l, a ∈ evens l) ↔ ∀ a ∈ l, ∀ b ∈ l, a = b := by
  match l with
  | [] => simp [evens]
  | [a] => simp [evens]
  | a :: b :: l =>
      obtain ⟨ha, hb⟩ : a ∉ b :: l ∧ b ∉ l :=
        ⟨(List.nodup_cons.mp hl).1, (List.nodup_cons.mp (List.nodup_cons.mp hl).2).1⟩
      have hne : a ≠ b := fun h => ha (h ▸ List.mem_cons_self)
      have hskipped : b ∉ evens (a :: b :: l) := by
        rw [evens, List.mem_cons]
        rintro (h | h)
        · exact hne h.symm
        · exact hb (mem_of_mem_evens h)
      have hmem : b ∈ a :: b :: l := List.mem_cons_of_mem _ List.mem_cons_self
      constructor
      · intro h
        exact absurd (h b hmem) hskipped
      · intro h
        exact absurd (h a List.mem_cons_self b hmem) hne

namespace JsonpySql

open StorageEngine

/-! ### The loops -/

/-- `next(ids)` on a lookup whose cursor is at a position.  The iterator reads
the list the index holds now; when the last id of a key goes, so does the key,
and the iterator is at its end. -/
def nextId (collection field : String) (value : PyVal) (position : ℕ) :
    EngineM (Option String) := do
  let im ← indexManager collection
  return (im.lookup field value)[position]?

/-- Run `body` for each id the iterator yields, from a position on; whether the
iterator came to its end within `fuel` turns. -/
def streamEach (body : String → EngineM Unit) (collection field : String) (value : PyVal) :
    ℕ → ℕ → EngineM Bool
  | 0, _ => pure false
  | fuel + 1, position => do
      match ← nextId collection field value position with
      | none => pure true
      | some docId => do
          body docId
          streamEach body collection field value fuel (position + 1)

/-- `for doc_id in engine.lookup(collection, field, value): engine.delete(...)`,
with an index on the field. -/
def deleteIds (collection field : String) (value : PyVal) (fuel : ℕ) : EngineM Bool := do
  require collection
  streamEach (StorageEngine.delete collection) collection field value fuel 0

/-- One turn of the loop over the rows of an `INDEX_LOOKUP`: the row is
fetched, and deleted if it was there. -/
def deleteRow (collection docId : String) : EngineM Unit := do
  match ← StorageEngine.get collection docId with
  | none => pure ()
  | some _ => StorageEngine.delete collection docId

/-- The same loop over the rows of an `INDEX_LOOKUP`. -/
def deleteRows (collection field : String) (value : PyVal) (fuel : ℕ) : EngineM Bool := do
  require collection
  streamEach (deleteRow collection) collection field value fuel 0

/-! ### One turn -/

variable {env : Env} {w : Database} {c field : String} {v : PyVal} {docId : String}
  {im : IndexManager} {t : Table}

/-- A delete takes its id out of the list it is looked up in. -/
theorem IndexManager.Exact.lookup_delete (h : im.Exact t) (ht : t.WF)
    (hfield : ∃ spec ∈ im.specs, spec.fields = [field]) (hi : docId ∈ im.lookup field v) :
    ((WriteOp.delete c docId).newIndexes t im).lookup field v =
      (im.lookup field v).erase docId := by
  obtain ⟨e, he⟩ : ∃ e, im.indexes.find? (fun e => e.1.fields = [field]) = some e := by
    obtain ⟨spec, hspec, hfields⟩ := hfield
    obtain ⟨e₀, he₀, rfl⟩ := List.mem_map.mp hspec
    exact Option.isSome_iff_exists.mp (List.find?_isSome.mpr ⟨e₀, he₀, decide_eq_true hfields⟩)
  obtain ⟨-, hlookup, hmem, -⟩ := IndexManager.lookup_of_find he v
  rw [hlookup] at hi ⊢
  have hkey : keyOf e.1 t docId = some v.toStr := ((h e hmem).mem_ids _ _).mp hi
  have hfind : ((WriteOp.delete c docId).newIndexes t im).indexes.find?
      (fun e => e.1.fields = [field]) =
        some (e.1, e.2.refile docId (keyOf e.1 t docId) none) := by
    rw [WriteOp.indexes_newIndexes _ ht, List.find?_map]
    exact congrArg (Option.map _) he
  obtain ⟨-, hlookup', -, -⟩ := IndexManager.lookup_of_find hfind v
  rw [hlookup', hkey]
  exact (InvertedIndex.ids_remove e.2 v.toStr docId v.toStr).trans (if_pos rfl)

/-- Between two turns: the indexes are exact, one of them is on the field, and
it lists these ids for the value. -/
structure Listed (w : Database) (c field : String) (v : PyVal) (ids : List String) : Prop where
  serving : Serving w
  exists_exact : ∃ im, w.mem.get? c = some im ∧ im.Exact (tables w.disk c) ∧
    (∃ spec ∈ im.specs, spec.fields = [field]) ∧ im.lookup field v = ids

namespace Listed

variable {ids : List String}

theorem mem_keys (h : Listed w c field v ids) : c ∈ w.mem.keys := by
  obtain ⟨im, him, -⟩ := h.exists_exact
  exact OrdDict.mem_keys_of_get? him

theorem nodup (h : Listed w c field v ids) : ids.Nodup := by
  obtain ⟨im, -, hexact, hfield, rfl⟩ := h.exists_exact
  exact (hexact.mem_lookup (tables_wf w.disk c) hfield v).1

/-- The ids listed are live. -/
theorem get_ne_none (h : Listed w c field v ids) (hi : docId ∈ ids) :
    (tables w.disk c).get docId ≠ none := by
  obtain ⟨im, -, hexact, hfield, rfl⟩ := h.exists_exact
  obtain ⟨r, hr, hid, -⟩ := ((hexact.mem_lookup (tables_wf w.disk c) hfield v).2 docId).mp hi
  have hlive := (Table.liveRow_eq_some_iff_rows (tables_wf w.disk c)).mpr ⟨hr, hid⟩
  simp [Table.get_eq_map_liveRow, hlive]

theorem run_nextId (h : Listed w c field v ids) (env : Env) (position : ℕ) :
    (nextId c field v position).run env w = ⟨.ok ids[position]?, w.mem, []⟩ := by
  obtain ⟨im, him, -, -, rfl⟩ := h.exists_exact
  rw [nextId, Prog.run_bind_read (run_indexManager him)]
  rfl

/-- **Deleting a listed id** removes it from the list and from the table. -/
theorem delete (h : Listed w c field v ids)
    (hfree : LockManager.blocked env (jsonlPath c) .exclusive = false) (hi : docId ∈ ids) :
    (StorageEngine.delete c docId).value env w = .ok () ∧
      Listed ((StorageEngine.delete c docId).exec env w) c field v (ids.erase docId) ∧
      tables ((StorageEngine.delete c docId).exec env w).disk c =
        (tables w.disk c).set docId none := by
  obtain ⟨im, him, hexact, hfield, rfl⟩ := h.exists_exact
  have ht := tables_wf w.disk c
  obtain ⟨hok, hchanged⟩ := perform_spec (.write (.delete c docId)) h.serving him hfree
  have htable : tables ((StorageEngine.delete c docId).exec env w).disk c =
      (tables w.disk c).set docId none := hchanged.table_self
  refine ⟨hok, ⟨hchanged.serving h.mem_keys h.serving, _, hchanged.get?_self, ?_, ?_,
    hexact.lookup_delete (c := c) ht hfield hi⟩, htable⟩
  · rw [htable]
    have hclean : EngineOp.Clean (.write (.delete c docId)) := by
      simp [EngineOp.Clean, WriteOp.Clean, WriteOp.document]
    exact exact_op hclean ht hexact (by simp)
  · rwa [EngineOp.specs_newIndexes]

end Listed

/-! ### The run -/

/-- A body that deletes the id it is given. -/
def Deletes (env : Env) (c : String) (body : String → EngineM Unit) : Prop :=
  ∀ w docId, Serving w → c ∈ w.mem.keys → (tables w.disk c).get docId ≠ none →
    (body docId).run env w = (StorageEngine.delete c docId).run env w

theorem deletes_deleteRow (hfree : LockManager.blocked env (jsonlPath c) .exclusive = false) :
    Deletes env c (deleteRow c) := by
  intro w docId hw hc hlive
  have hfree := LockManager.free_of_exclusive hfree .shared
  obtain ⟨d, hd⟩ := Option.ne_none_iff_exists'.mp hlive
  rw [deleteRow, Prog.run_bind_read (run_engine_get hw hc hfree docId), hd]

section Run

variable {body : String → EngineM Unit} {ids : List String} {fuel position : ℕ}

/-- At the end of the list the loop ends. -/
theorem run_streamEach_end (env : Env) (body : String → EngineM Unit) (fuel : ℕ)
    (h : Listed w c field v ids) (hend : ids[position]? = none) :
    (streamEach body c field v (fuel + 1) position).run env w = ⟨.ok true, w.mem, []⟩ := by
  have hnext := h.run_nextId env position
  rw [hend] at hnext
  rw [streamEach, Prog.run_bind_read hnext]
  rfl

/-- Before it, the loop goes on after one delete. -/
theorem streamEach_turn (fuel : ℕ) (hbody : Deletes env c body)
    (hfree : LockManager.blocked env (jsonlPath c) .exclusive = false)
    (h : Listed w c field v ids) (hat : ids[position]? = some docId) :
    let w' := (StorageEngine.delete c docId).exec env w
    (streamEach body c field v (fuel + 1) position).value env w =
        (streamEach body c field v fuel (position + 1)).value env w' ∧
      (streamEach body c field v (fuel + 1) position).exec env w =
        (streamEach body c field v fuel (position + 1)).exec env w' := by
  intro w'
  have hi : docId ∈ ids := List.mem_of_getElem? hat
  have hrun := hbody w docId h.serving h.mem_keys (h.get_ne_none hi)
  have hok : (body docId).value env w = .ok () :=
    (congrArg Outcome.result hrun).trans (h.delete hfree hi).1
  have hexec : (body docId).exec env w = w' := by
    show Prog.exec _ env w = Prog.exec _ env w
    rw [Prog.exec, hrun]
    rfl
  have hnext := h.run_nextId env position
  rw [hat] at hnext
  have hloop : (streamEach body c field v (fuel + 1) position).run env w =
      (body docId >>= fun _ => streamEach body c field v fuel (position + 1)).run env w := by
    rw [streamEach, Prog.run_bind_read hnext]
  constructor
  · rw [Prog.value, hloop, ← hexec]
    exact Prog.value_bind_ok hok
  · rw [Prog.exec, hloop, ← hexec]
    exact Prog.exec_bind_ok hok

/-- **The loop deletes every other id** ahead of its cursor, and no others. -/
theorem streamEach_spec (position : ℕ) (hbody : Deletes env c body)
    (hfree : LockManager.blocked env (jsonlPath c) .exclusive = false)
    (h : Listed w c field v ids) (hfuel : ids.length - position < fuel) :
    ∃ w', (streamEach body c field v fuel position).value env w = .ok true ∧
      (streamEach body c field v fuel position).exec env w = w' ∧
      Serving w' ∧ c ∈ w'.mem.keys ∧ ∀ i, (tables w'.disk c).get i =
        if i ∈ evens (ids.drop position) then none else (tables w.disk c).get i := by
  induction fuel generalizing w ids position with
  | zero => exact absurd hfuel (Nat.not_lt_zero _)
  | succ fuel ih =>
      rcases hrest : ids.drop position with _ | ⟨a, tail⟩
      · have hend : ids[position]? = none :=
          List.getElem?_eq_none (List.drop_eq_nil_iff.mp hrest)
        have hrun := run_streamEach_end env body fuel h hend
        exact ⟨w, congrArg Outcome.result hrun, Prog.exec_of_run hrun, h.serving, h.mem_keys,
          fun i => rfl⟩
      · have hat : ids[position]? = some a := by
          rw [← List.head?_drop, hrest]
          rfl
        have ha : a ∈ ids := List.mem_of_getElem? hat
        obtain ⟨hvalue, hexec⟩ := streamEach_turn fuel hbody hfree h hat
        obtain ⟨-, hlisted, htable⟩ := h.delete hfree ha
        have hfuel' : (ids.erase a).length - (position + 1) < fuel := by
          have hlt : position < ids.length := (List.getElem?_eq_some_iff.mp hat).1
          rw [List.length_erase_of_mem ha]
          omega
        obtain ⟨w', hv, he, hw', hc', hget⟩ := ih (position + 1) hlisted hfuel'
        refine ⟨w', hvalue.trans hv, hexec.trans he, hw', hc', fun i => ?_⟩
        rw [hget, htable, drop_erase_of_drop h.nodup hrest, evens_cons]
        simp only [List.mem_cons, Table.get_eq_map_liveRow, Table.liveRow_set]
        by_cases hi : i = a
        · simp [hi]
        · simp [hi]

end Run

/-! ### All matches -/

/-- The documents a lookup is for: those whose field has the same text. -/
def Matches (w : Database) (c field : String) (v : PyVal) (docId : String) : Prop :=
  ∃ r ∈ DocumentStore.rows (tables w.disk c), r.docId = some docId ∧
    (Doc.get r.doc field).toStr = v.toStr

/-- A loop comes to its end, and every document that matched when it began is
gone. -/
def DeletesMatches (env : Env) (w : Database) (c field : String) (v : PyVal)
    (loop : ℕ → EngineM Bool) : Prop :=
  ∃ turns, ∀ fuel ≥ turns, (loop fuel).value env w = .ok true ∧
    ∀ i, Matches w c field v i →
      (StorageEngine.get c i).value env ((loop fuel).exec env w) = .ok none

/-- With enough turns a loop ends, and of the ids its lookup lists those at the even
positions are gone. -/
theorem streamingLoop_spec {body : String → EngineM Unit} {loop : EngineM Bool} {fuel : ℕ}
    {ids : List String} (hbody : Deletes env c body)
    (hloop : loop = require c >>= fun _ => streamEach body c field v fuel 0)
    (hlisted : Listed w c field v ids)
    (hfree : LockManager.blocked env (jsonlPath c) .exclusive = false)
    (hfuel : ids.length < fuel) :
    loop.value env w = .ok true ∧ ∀ i ∈ ids,
      ((StorageEngine.get c i).value env (loop.exec env w) = .ok none ↔ i ∈ evens ids) := by
  obtain ⟨w', hvalue, hexec, hw', hc', hget⟩ := streamEach_spec 0 hbody hfree hlisted hfuel
  have hreq : (require c).run env w = _ := run_require hlisted.mem_keys
  have hrun : loop.run env w = (streamEach body c field v fuel 0).run env w := by
    rw [hloop, Prog.run_bind_read hreq]
  refine ⟨(congrArg Outcome.result hrun).trans hvalue, fun i hi => ?_⟩
  have hget' : (StorageEngine.get c i).value env w' = .ok ((tables w'.disk c).get i) :=
    congrArg Outcome.result (run_engine_get hw' hc' (LockManager.free_of_exclusive hfree _) i)
  rw [Prog.exec_congr hrun, hexec, hget', hget, List.drop_zero, Except.ok.injEq]
  simp [hlisted.get_ne_none hi]

theorem deletesMatches_iff {body : String → EngineM Unit} {loop : ℕ → EngineM Bool}
    (hbody : Deletes env c body)
    (hloop : ∀ fuel, loop fuel = require c >>= fun _ => streamEach body c field v fuel 0)
    (hw : Serving w) (him : w.mem.get? c = some im) (hexact : im.Exact (tables w.disk c))
    (hfield : ∃ spec ∈ im.specs, spec.fields = [field])
    (hfree : LockManager.blocked env (jsonlPath c) .exclusive = false) :
    DeletesMatches env w c field v loop ↔
      ∀ i j, Matches w c field v i → Matches w c field v j → i = j := by
  have hlisted : Listed w c field v (im.lookup field v) := ⟨hw, im, him, hexact, hfield, rfl⟩
  have hmatch : ∀ i, i ∈ im.lookup field v ↔ Matches w c field v i :=
    (hexact.mem_lookup (tables_wf w.disk c) hfield v).2
  have hrun := fun fuel (hfuel : (im.lookup field v).length < fuel) =>
    streamingLoop_spec hbody (hloop fuel) hlisted hfree hfuel
  rw [DeletesMatches]
  calc _ ↔ ∀ i ∈ im.lookup field v, i ∈ evens (im.lookup field v) := by
        constructor
        · rintro ⟨turns, hturns⟩ i hi
          obtain ⟨-, hall⟩ := hturns (max turns ((im.lookup field v).length + 1)) (le_max_left _ _)
          exact ((hrun _ (lt_of_lt_of_le (Nat.lt_succ_self _) (le_max_right _ _))).2 i hi).mp
            (hall i ((hmatch i).mp hi))
        · intro hall
          refine ⟨(im.lookup field v).length + 1, fun fuel hfuel => ⟨(hrun fuel hfuel).1, ?_⟩⟩
          intro i hi
          exact ((hrun fuel hfuel).2 i ((hmatch i).mpr hi)).mpr (hall i ((hmatch i).mpr hi))
    _ ↔ _ := by
        rw [forall_mem_evens_iff hlisted.nodup]
        simp only [hmatch]
        exact ⟨fun h i j hi hj => h i hi j hj, fun h i hi j hj => h i j hi hj⟩

/-- **When streaming deletes all matches.**  A loop that deletes each id, or
each row, of an indexed lookup before it asks for the next one comes to its end
with every match gone just if at most one document matched. -/
theorem streaming_deletes_iff (hw : Serving w) (him : w.mem.get? c = some im)
    (hexact : im.Exact (tables w.disk c)) (hfield : ∃ spec ∈ im.specs, spec.fields = [field])
    (v : PyVal) (hfree : LockManager.blocked env (jsonlPath c) .exclusive = false) :
    (DeletesMatches env w c field v (deleteIds c field v) ↔
      ∀ i j, Matches w c field v i → Matches w c field v j → i = j) ∧
    (DeletesMatches env w c field v (deleteRows c field v) ↔
      ∀ i j, Matches w c field v i → Matches w c field v j → i = j) :=
  ⟨deletesMatches_iff (fun _ _ _ _ _ => rfl) (fun _ => rfl) hw him hexact hfield hfree,
    deletesMatches_iff (deletes_deleteRow hfree) (fun _ => rfl) hw him hexact hfield hfree⟩

/-- Two users with these addresses. -/
def insertTwo (a b : String) : List EngineOp :=
  [.write (.insert "users" "1" (OrdDict.ofList [("email", .str a)])),
    .write (.insert "users" "2" (OrdDict.ofList [("email", .str b)]))]

def twoUsers (a b : String) : Database := (performAll (insertTwo a b)).exec onlyClient usersDb

theorem twoUsers_exact {a b : String} (hclean : ∀ op ∈ insertTwo a b, op.Clean) :
    Serving (twoUsers a b) ∧ ∃ im, (twoUsers a b).mem.get? "users" = some im ∧
      (∃ spec ∈ im.specs, spec.fields = ["email"]) ∧
      im.Exact (tables (twoUsers a b).disk "users") := by
  have hnew : Indexed IndexManager.Exact "users" [⟨["email"], true⟩] usersDb :=
    ⟨_, rfl, rfl, IndexManager.Exact.new (fun _ => rfl) _ _⟩
  have hreg : ∀ op ∈ insertTwo a b, op.collection ∈ usersDb.mem.keys := by
    have hcoll : ∀ op ∈ insertTwo a b, op.collection = "users" := by
      simp [insertTwo, EngineOp.collection, WriteOp.collection]
    intro op hop
    rw [hcoll op hop]
    decide
  have hfresh : InsertsFresh onlyClient "users" usersDb (insertTwo a b) := by
    refine ⟨fun i d h => ?_, fun i d h => ?_, trivial⟩
    · cases h
      rfl
    · cases h
      rfl
  obtain ⟨-, hw, im, him, hspecs, hexact⟩ :=
    performAll_exact onlyClient_alone usersDb_serving hreg hclean hfresh hnew
  exact ⟨hw, im, him, ⟨_, hspecs ▸ List.mem_singleton.mpr rfl, rfl⟩, hexact⟩

/-- Of two users with one address, the second is passed over. -/
theorem second_match_kept : Serving (twoUsers "a" "a") ∧
    (∃ im, (twoUsers "a" "a").mem.get? "users" = some im ∧
      (∃ spec ∈ im.specs, spec.fields = ["email"]) ∧
      im.Exact (tables (twoUsers "a" "a").disk "users")) ∧
    ¬DeletesMatches onlyClient (twoUsers "a" "a") "users" "email" (.str "a")
      (deleteIds "users" "email" (.str "a")) := by
  obtain ⟨hw, im, him, hfield, hexact⟩ := twoUsers_exact (a := "a") (b := "a") (by decide)
  refine ⟨hw, ⟨im, him, hfield, hexact⟩, fun h => ?_⟩
  have hone := (deletesMatches_iff (fun _ _ _ _ _ => rfl) (fun _ => rfl) hw him hexact hfield
    rfl).mp h "1" "2" (by unfold Matches; decide) (by unfold Matches; decide)
  exact absurd hone (by decide)

/-- Two users with different addresses. -/
theorem streaming_deletes_twoUsers :
    DeletesMatches onlyClient (twoUsers "a" "b") "users" "email" (.str "a")
      (deleteRows "users" "email" (.str "a")) := by
  obtain ⟨hw, im, him, hfield, hexact⟩ := twoUsers_exact (a := "a") (b := "b") (by decide)
  refine (streaming_deletes_iff hw him hexact hfield (.str "a") rfl).2.mpr ?_
  have hrows : (DocumentStore.rows (tables (twoUsers "a" "b").disk "users")).filter
      (fun r => (Doc.get r.doc "email").toStr = (PyVal.str "a").toStr) =
        [Record.ofDoc "1" (OrdDict.ofList [("email", .str "a")])] := by decide
  have honly : ∀ i, Matches (twoUsers "a" "b") "users" "email" (.str "a") i → i = "1" := by
    rintro i ⟨r, hr, hid, htext⟩
    have hmem : r ∈ [Record.ofDoc "1" (OrdDict.ofList [("email", .str "a")])] := by
      rw [← hrows]
      exact List.mem_filter.mpr ⟨hr, decide_eq_true htext⟩
    rw [List.mem_singleton.mp hmem] at hid
    exact (Option.some.inj hid).symm
  intro i j hi hj
  rw [honly i hi, honly j hj]

end JsonpySql
