/-
JsonpySql/CrashedWrites.lean

Crashes in the middle of a direct write.

The line is appended first, then the index files are replaced one by one.  A
crash in between leaves every file in place, so nothing is rebuilt on open: the
indexes whose files were replaced list the new key of the id, the others the
old one.  Each single-field index then agrees with the documents just if the
key it lists is the key of the stored line (`crashedWrite_agrees_iff`).
-/
import JsonpySql.DamagedIndexes
import JsonpySql.Refiling

namespace JsonpySql

open StorageEngine

variable {env : Env} {w : Database} {c : String} {im : IndexManager}

namespace WriteOp

/-- A write lists its id in an index under the key it stores, and under no
other: it files it under this key, and an insert finds no other key there. -/
def RefilesRight (op : WriteOp) (t : Table) (spec : IndexSpec) : Prop :=
  op.filedKey spec = op.storedKey spec ∧
    (op.isInsert = true → ∀ key, IndexManager.keyOf spec t op.docId = some key →
      op.storedKey spec = some key)

theorem refilesRight_iff (op : WriteOp) (t : Table) (spec : IndexSpec) :
    op.RefilesRight t spec ↔ ∀ key,
      (IndexManager.keyOf spec t op.docId = some key ∧ op.removedKey t spec ≠ some key) ∨
        op.filedKey spec = some key ↔ op.storedKey spec = some key := by
  -- what an update or a delete removes is all there was
  have hremoved : ∀ before filed stored : Option String,
      (∀ key, (before = some key ∧ before ≠ some key) ∨ filed = some key ↔ stored = some key) ↔
        filed = stored := by
    intro before filed stored
    constructor
    · intro h
      exact Option.ext fun key => ⟨fun hkey => (h key).mp (Or.inr hkey),
        fun hkey => ((h key).mpr hkey).resolve_left fun hboth => hboth.2 hboth.1⟩
    · rintro rfl key
      exact ⟨fun h => h.resolve_left fun hboth => hboth.2 hboth.1, Or.inr⟩
  cases op with
  | insert c i d =>
      -- an insert removes nothing, and files a key
      show (some _ = _ ∧ (true = true → _)) ↔ ∀ key, (_ ∧ none ≠ some key) ∨ some _ = some key ↔ _
      constructor
      · rintro ⟨hfiled, hbefore⟩ key
        rw [hfiled]
        refine ⟨?_, Or.inr⟩
        rintro (⟨hkey, -⟩ | hkey)
        · exact hbefore rfl key hkey
        · exact hkey
      · intro h
        have hfiled := (h _).mp (Or.inr rfl)
        exact ⟨hfiled.symm, fun _ key hkey => (h key).mp (Or.inl ⟨hkey, nofun⟩)⟩
  | update c i d =>
      exact (and_iff_left nofun).trans (hremoved (IndexManager.keyOf spec t i) _ _).symm
  | delete c i =>
      exact (and_iff_left nofun).trans (hremoved (IndexManager.keyOf spec t i) _ _).symm

end WriteOp

/-! ### What a crash leaves in the files -/

namespace Intact

/-- Two indexes of a collection have different files. -/
theorem eq_of_idxPath_eq (h : Intact w) (him : w.mem.get? c = some im)
    {e e' : IndexSpec × SortedDict} (he : e ∈ im.indexes) (he' : e' ∈ im.indexes)
    (hpath : IndexManager.idxPath c e.1 = IndexManager.idxPath c e'.1) : e = e' := by
  have hidx := h.get?_idx him he
  have hpayload := hidx
  rw [hpath, h.get?_idx him he', Option.some.injEq] at hpayload
  have hspec : e.1 = e'.1 := by
    obtain ⟨hfields, hunique, -⟩ := IdxFile.payload.inj hpayload
    exact (IndexSpec.mk.injEq ..).mpr ⟨hfields.symm, hunique.symm⟩
  have hread := IndexManager.readIdx_idxPayload "" e.1 e.2
  have hread' := IndexManager.readIdx_idxPayload "" e'.1 e'.2
  rw [hpayload, ← hspec, hread] at hread'
  exact Prod.ext hspec (Except.ok.inj hread')

/-- After the first `n` files of a save of changed indexes of a collection, an
index file holds the new index if it is one of them, and else the old one. -/
theorem idx_take_files (h : Intact w) (him : w.mem.get? c = some im) {im' : IndexManager}
    {newIdx : IndexSpec × SortedDict → SortedDict}
    (hindexes : im'.indexes = im.indexes.map fun e => (e.1, newIdx e))
    (hcollection : im'.collection = im.collection) (n : ℕ) {c₁ : String} {im₁ : IndexManager}
    (him₁ : w.mem.get? c₁ = some im₁) {e : IndexSpec × SortedDict} (he : e ∈ im₁.indexes) :
    (LastWins.map String IdxFile).run w.disk.idx (im'.files.take n)
        (IndexManager.idxPath c₁ e.1) =
      some (IndexManager.idxPayload e.1
        (if c₁ = c ∧ e.1 ∈ im.specs.take n then newIdx e else e.2)) := by
  have hfiles : im'.files.take n = (im.indexes.take n).map fun e =>
      (IndexManager.idxPath c e.1, IndexManager.idxPayload e.1 (newIdx e)) := by
    rw [IndexManager.files, hindexes, hcollection, h.named c im him, List.map_map, List.map_take]
    rfl
  have hspecs : im.specs.take n = (im.indexes.take n).map Prod.fst := by
    rw [IndexManager.specs, List.map_take]
  rw [hfiles]
  split
  · next hmem =>
      obtain ⟨rfl, hmem⟩ := hmem
      obtain rfl : im = im₁ := Option.some.inj (him.symm.trans him₁)
      rw [hspecs] at hmem
      obtain ⟨e', he', heq⟩ := List.mem_map.mp hmem
      apply LastWins.map_run_of_forall
      · rw [List.map_map]
        exact List.mem_map.mpr ⟨e', he', congrArg (IndexManager.idxPath c₁) heq⟩
      -- the files with this name are those of this index
      · intro f hf hpath
        obtain ⟨e'', he'', rfl⟩ := List.mem_map.mp hf
        rw [h.eq_of_idxPath_eq him (List.mem_of_mem_take he'') he hpath]
  · next hnot =>
      rw [LastWins.map_run_of_notMem, h.get?_idx him₁ he]
      rw [List.map_map]
      intro hmem
      obtain ⟨e', he', hpath⟩ := List.mem_map.mp hmem
      refine hnot ?_
      rcases eq_or_ne c₁ c with rfl | hne
      · obtain rfl : im = im₁ := Option.some.inj (him.symm.trans him₁)
        refine ⟨rfl, ?_⟩
        rw [hspecs, ← h.eq_of_idxPath_eq him (List.mem_of_mem_take he') he hpath]
        exact List.mem_map_of_mem he'
      -- the files of another collection are not written
      · have hspec' : e'.1 ∈ im.specs := List.mem_map_of_mem (List.mem_of_mem_take he')
        exact absurd (List.mem_map.mpr ⟨e'.1, hspec', hpath⟩)
          (h.separate.notMem hne (get?_catalog him₁) (get?_catalog him) _
            (List.mem_map_of_mem (List.mem_map_of_mem he)))

end Intact

/-! ### After a crash -/

/-- What must be so for one index when a crash comes after the line and the
first `n` index files: if its file was replaced, the write lists its id right,
and else the key of the id is the one it was. -/
def WriteOp.SurvivesCrash (op : WriteOp) (t : Table) (replaced : List IndexSpec)
    (spec : IndexSpec) : Prop :=
  if spec ∈ replaced then op.RefilesRight t spec
  else op.storedKey spec = IndexManager.keyOf spec t op.docId

/-- One index of the crashed write. -/
theorem Intact.lists_crashed_iff (h : Intact w) (op : WriteOp)
    (him : w.mem.get? op.collection = some im) (n : ℕ) {e : IndexSpec × SortedDict}
    (he : e ∈ im.indexes) :
    let t := tables w.disk op.collection
    InvertedIndex.Lists (if e.1 ∈ im.specs.take n then
        e.2.refile op.docId (op.removedKey t e.1) (op.filedKey e.1) else e.2)
        (IndexManager.keyOf e.1 (t.set op.docId op.line.slot)) ↔
      op.SurvivesCrash t (im.specs.take n) e.1 := by
  intro t
  have hold : InvertedIndex.Lists e.2 (IndexManager.keyOf e.1 t) :=
    (h.exact op.collection im him e he).lists
  rw [IndexManager.keyOf_set, WriteOp.SurvivesCrash]
  split
  · rw [op.refilesRight_iff]
    exact hold.refile_iff
  · -- the index is the old one
    rw [← WriteOp.storedKey]
    constructor
    · intro hnew
      refine Option.ext fun key => ?_
      have hiff := (hnew.mem_ids key op.docId).symm.trans (hold.mem_ids key op.docId)
      rw [Function.update_self] at hiff
      exact hiff
    · intro hsame
      rw [Function.update_eq_self_iff.mpr hsame]
      exact hold

/-- Opening a directory in which every index file holds some index. -/
theorem Intact.lookupsAgree_opened {T : String → Table} {d : Disk} (h : Intact w)
    (henv : env.Alone) (hholds : Holds (catalog w.mem) OrdDict.empty T d)
    (newIdx : String → IndexSpec × SortedDict → SortedDict)
    (hidx : ∀ c im, w.mem.get? c = some im → ∀ e ∈ im.indexes,
      d.idx (IndexManager.idxPath c e.1) = some (IndexManager.idxPayload e.1 (newIdx c e))) :
    LookupsAgree env (init.exec env ⟨OrdDict.empty, d⟩) ↔
      ∀ c im, w.mem.get? c = some im → ∀ e ∈ im.indexes, ∀ field, e.1.fields = [field] →
        InvertedIndex.Lists (newIdx c e) (IndexManager.keyOf e.1 (T c)) := by
  rw [lookupsAgree_reopened henv hholds h.separate]
  constructor
  · intro hall c im him e he field hfields
    have hthere : ¬MissingIdx d c im.specs := by
      rw [missingIdx_iff]
      rintro ⟨spec, hspec, hnone⟩
      obtain ⟨e', he', rfl⟩ := List.mem_map.mp hspec
      rw [hidx c im him e' he'] at hnone
      cases hnone
    have hlists := (hall c im.specs (get?_catalog him)).resolve_left hthere e.1
      (List.mem_map_of_mem he) field hfields
    rw [loadedIdx_of_payload (hidx c im him e he)] at hlists
    exact hlists
  · intro hall c specs hspecs
    obtain ⟨im, him, rfl⟩ := exists_of_catalog hspecs
    refine Or.inr fun spec hspec field hfields => ?_
    obtain ⟨e, he, rfl⟩ := List.mem_map.mp hspec
    rw [loadedIdx_of_payload (hidx c im him e he)]
    exact hall c im him e he field hfields

/-- Opening an intact directory again. -/
theorem Intact.lookupsAgree (h : Intact w) (henv : env.Alone)
    (hlogs : w.disk.wal = OrdDict.empty) :
    init.value env ⟨OrdDict.empty, w.disk⟩ = .ok () ∧
      LookupsAgree env (init.exec env ⟨OrdDict.empty, w.disk⟩) := by
  refine ⟨congrArg Outcome.result (run_init env (h.holds hlogs) h.separate), ?_⟩
  rw [h.lookupsAgree_opened henv (h.holds hlogs) (fun _ e => e.2)
    fun c im him e he => h.get?_idx him he]
  exact fun c im him e he field hfields => (h.exact c im him e he).lists

/-- A crash after the line and the first `n` index files. -/
theorem Intact.agrees_crashed_iff (h : Intact w) (op : WriteOp) (n : ℕ) (henv : env.Alone)
    (hlogs : w.disk.wal = OrdDict.empty) (him : w.mem.get? op.collection = some im) :
    let d := op.direct.crashAt env w (n + 1)
    init.value env ⟨OrdDict.empty, d⟩ = .ok () ∧
      (LookupsAgree env (init.exec env ⟨OrdDict.empty, d⟩) ↔
        ∀ spec ∈ im.specs, ∀ field, spec.fields = [field] →
          op.SurvivesCrash (tables w.disk op.collection) (im.specs.take n) spec) := by
  intro d
  have hrun := run_direct op h.consistent.serving him
    (LockManager.blocked_of_alone henv (jsonlPath op.collection) .exclusive)
  set t := tables w.disk op.collection
  set T := store.put (tables w.disk) (op.collection, op.docId) op.line.slot with hT
  have hwrites : d = applyAll (w.disk.write (.appendJsonl (jsonlPath op.collection) op.line))
      ((op.newIndexes t im).saveWrites.take n) := by
    show applyAll w.disk ((op.direct.run env w).writes.take (n + 1)) = _
    rw [hrun]
    rfl
  have hholds : Holds (catalog w.mem) OrdDict.empty T d := by
    rw [hwrites]
    refine ((h.holds hlogs).appendJsonl op.collection op.docId_line).sameData ?_
    exact Disk.sameData_applyAll
      (fun dw hdw => IndexManager.isIndex_saveWrites _ dw (List.mem_of_mem_take hdw)) _
  have hidx : d.idx =
      (LastWins.map String IdxFile).run w.disk.idx ((op.newIndexes t im).files.take n) := by
    rw [hwrites, IndexManager.idx_take_saveWrites]
    rfl
  have hfiles : ∀ c im', w.mem.get? c = some im' → ∀ e ∈ im'.indexes,
      d.idx (IndexManager.idxPath c e.1) = some (IndexManager.idxPayload e.1
        (if c = op.collection ∧ e.1 ∈ im.specs.take n then
          e.2.refile op.docId (op.removedKey t e.1) (op.filedKey e.1) else e.2)) := by
    intro c im' him' e he
    rw [hidx]
    exact h.idx_take_files him (op.indexes_newIndexes (tables_wf _ _) im) op.collection_newIndexes n
      him' he
  refine ⟨congrArg Outcome.result (run_init env hholds h.separate), ?_⟩
  rw [h.lookupsAgree_opened henv hholds _ hfiles]
  have htable : T op.collection = t.set op.docId op.line.slot := by
    rw [hT, store_put, Function.update_self]
  constructor
  · intro hall spec hspec field hfields
    obtain ⟨e, he, rfl⟩ := List.mem_map.mp hspec
    have hlists := hall op.collection im him e he field hfields
    simp only [true_and, htable] at hlists
    exact (h.lists_crashed_iff op him n he).mp hlists
  · intro hall c im' him' e he field hfields
    rcases eq_or_ne c op.collection with rfl | hne
    · obtain rfl : im = im' := Option.some.inj (him.symm.trans him')
      simp only [true_and, htable]
      exact (h.lists_crashed_iff op him n he).mpr
        (hall e.1 (List.mem_map_of_mem he) field hfields)
    · rw [if_neg fun hboth => hne hboth.1, hT, store_put, Function.update_of_ne hne]
      exact (h.exact c im' him' e he).lists

/-- **When a crash in a write leaves lookups in agreement.**  Stop a direct
write after `k` of its file writes and open the directory again: every lookup
agrees with the documents just if nothing was written yet, or every single-field
index of the collection survives the crash. -/
theorem crashedWrite_agrees_iff (op : WriteOp) (k : ℕ) (henv : env.Alone) (h : Intact w)
    (hlogs : w.disk.wal = OrdDict.empty) :
    let d := op.direct.crashAt env w k
    init.value env ⟨OrdDict.empty, d⟩ = .ok () ∧
      (LookupsAgree env (init.exec env ⟨OrdDict.empty, d⟩) ↔
        k = 0 ∨ ∀ im, w.mem.get? op.collection = some im →
          ∀ spec ∈ im.specs, ∀ field, spec.fields = [field] →
            op.SurvivesCrash (tables w.disk op.collection) (im.specs.take (k - 1)) spec) := by
  intro d
  have hsame := h.lookupsAgree henv hlogs
  rcases him : w.mem.get? op.collection with _ | im
  · -- a write to an unregistered collection raises
    have hrun : op.direct.run env w = ⟨.error (.storageError
        ("Unknown collection: " ++ strRepr op.collection)), w.mem, []⟩ :=
      run_perform_of_notMem (.write op) env (OrdDict.get?_eq_none_iff.mp him)
    have hd : d = w.disk := by
      show applyAll w.disk ((op.direct.run env w).writes.take k) = _
      rw [hrun, List.take_nil]
      rfl
    rw [hd]
    exact ⟨hsame.1, iff_of_true hsame.2 (Or.inr fun im h => by cases h)⟩
  rcases k with _ | n
  · exact ⟨hsame.1, iff_of_true hsame.2 (Or.inl rfl)⟩
  · obtain ⟨hok, hiff⟩ := h.agrees_crashed_iff op n henv hlogs him
    refine ⟨hok, hiff.trans ⟨fun hall => Or.inr fun im' him' => ?_, fun hall => ?_⟩⟩
    · obtain rfl := Option.some.inj him'
      exact hall
    · exact hall.resolve_left (Nat.succ_ne_zero n) im rfl

/-- An update stops after its line: the index lists the old key. -/
theorem crashedWrite_disagrees :
    let op : WriteOp := .update "users" "1" (oneUser.set "email" (.str "b"))
    Intact oneUserDb ∧ ¬LookupsAgree onlyClient
      (init.exec onlyClient ⟨OrdDict.empty, op.direct.crashAt onlyClient oneUserDb 1⟩) := by
  intro op
  refine ⟨oneUserDb_intact, fun h => ?_⟩
  obtain ⟨im, him⟩ : ∃ im, oneUserDb.mem.get? op.collection = some im := ⟨_, rfl⟩
  have hspecs : im.specs = [⟨["email"], true⟩, ⟨["age"], false⟩] := by
    obtain rfl := Option.some.inj him
    rfl
  have hsurvives := (oneUserDb_intact.agrees_crashed_iff op 0 onlyClient_alone rfl him).2.mp h
    ⟨["email"], true⟩ (by rw [hspecs]; exact List.mem_cons_self) "email" rfl
  rw [List.take_zero, WriteOp.SurvivesCrash, if_neg List.not_mem_nil] at hsurvives
  -- the stored key is `b`, the listed one `a`
  exact absurd hsurvives (by decide)

/-- An update of one field stops after the file of its index. -/
theorem crashedWrite_agrees_users :
    let op : WriteOp := .update "users" "1" (oneUser.set "email" (.str "b"))
    LookupsAgree onlyClient
      (init.exec onlyClient ⟨OrdDict.empty, op.direct.crashAt onlyClient oneUserDb 2⟩) := by
  intro op
  refine (crashedWrite_agrees_iff op 2 onlyClient_alone oneUserDb_intact rfl).2.mpr
    (Or.inr fun im him spec hspec field _ => ?_)
  have hspecs : im.specs = [⟨["email"], true⟩, ⟨["age"], false⟩] := by
    obtain rfl := Option.some.inj him
    rfl
  rw [hspecs] at hspec ⊢
  rw [List.mem_cons, List.mem_singleton] at hspec
  obtain rfl | rfl := hspec
  -- the file of the changed field was replaced, the other key is as it was
  · exact ⟨by decide, nofun⟩
  · rw [WriteOp.SurvivesCrash, if_neg (by decide)]
    decide

end JsonpySql
