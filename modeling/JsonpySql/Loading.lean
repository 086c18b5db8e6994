/-
JsonpySql/Loading.lean

What opening a directory makes of its index files.

A collection reads its own index files and, when it rebuilds, writes them.
Where no two collections share an index file (`SeparateFiles`) the turns of the
loading loop do not see each other, so the registry that comes out says of
every collection what the directory said of it before the loop
(`run_loadCatalog`).  A collection whose files hold its indexes (`SavedIn`) is
read back as it was.
-/
import Mathlib.Data.List.Pairwise
import JsonpySql.Recovery

namespace JsonpySql

open StorageEngine

/-! ### Saved indexes -/

namespace IndexManager

variable {im : IndexManager} {d d' : Disk} {env : Env}

/-- The files of an index manager hold its indexes. -/
structure SavedIn (im : IndexManager) (disk : Disk) : Prop where
  idx : ∀ e ∈ im.indexes, disk.idx (idxPath im.collection e.1) = some (idxPayload e.1 e.2)
  ridx : disk.ridx (ridxPath im.collection) = some im.ridxPayload

/-- The names of the `.idx` files. -/
def idxPaths (collection : String) (specs : List IndexSpec) : List String :=
  specs.map (idxPath collection)

theorem ridxPath_injective : Function.Injective ridxPath := by
  intro c c' h
  exact String.append_left_inj ".ridx" |>.mp h

theorem map_fst_files (im : IndexManager) :
    im.files.map Prod.fst = idxPaths im.collection im.specs := by
  rw [files, idxPaths, specs, List.map_map, List.map_map]
  rfl

theorem idx_saveWrites_of_notMem {path : String} (h : path ∉ idxPaths im.collection im.specs)
    (d : Disk) : (applyAll d im.saveWrites).idx path = d.idx path := by
  rw [applyAll_saveWrites]
  exact LastWins.map_run_of_notMem d.idx (im.map_fst_files ▸ h)

theorem ridx_saveWrites_of_ne {c : String} (h : c ≠ im.collection) (d : Disk) :
    (applyAll d im.saveWrites).ridx (ridxPath c) = d.ridx (ridxPath c) := by
  rw [applyAll_saveWrites]
  exact Function.update_of_ne (fun heq => h (ridxPath_injective heq)) _ _

theorem idx_unlinkWrites_of_notMem {path : String} (h : path ∉ idxPaths im.collection im.specs)
    (d : Disk) : (applyAll d im.unlinkWrites).idx path = d.idx path := by
  refine applyAll_induction (P := fun d' : Disk => d'.idx path = d.idx path) rfl
    fun dw hdw d' hd' => ?_
  rw [unlinkWrites, List.mem_append, List.mem_map, List.mem_singleton] at hdw
  obtain ⟨e, he, rfl⟩ | rfl := hdw
  · have hne : path ≠ idxPath im.collection e.1 := fun heq =>
      h (heq ▸ List.mem_map_of_mem (List.mem_map_of_mem he))
    exact (Function.update_of_ne hne _ _).trans hd'
  · exact hd'

theorem ridx_unlinkWrites_of_ne {c : String} (h : c ≠ im.collection) (d : Disk) :
    (applyAll d im.unlinkWrites).ridx (ridxPath c) = d.ridx (ridxPath c) := by
  refine applyAll_induction (P := fun d' : Disk => d'.ridx (ridxPath c) = d.ridx (ridxPath c)) rfl
    fun dw hdw d' hd' => ?_
  rw [unlinkWrites, List.mem_append, List.mem_map, List.mem_singleton] at hdw
  obtain ⟨e, -, rfl⟩ | rfl := hdw
  · exact hd'
  · exact (Function.update_of_ne (fun heq => h (ridxPath_injective heq)) _ _).trans hd'

/-- A save leaves the indexes in their files, if these are different files. -/
theorem savedIn_saveWrites (h : (idxPaths im.collection im.specs).Nodup) (d : Disk) :
    im.SavedIn (applyAll d im.saveWrites) := by
  rw [applyAll_saveWrites]
  refine ⟨fun e he => ?_, Function.update_self ..⟩
  exact LastWins.map_run_of_nodup d.idx (im.map_fst_files.symm ▸ h) (List.mem_map_of_mem he)

/-- Whether indexes are saved depends on their own files. -/
theorem SavedIn.congr (h : im.SavedIn d)
    (hidx : ∀ path ∈ idxPaths im.collection im.specs, d'.idx path = d.idx path)
    (hridx : d'.ridx (ridxPath im.collection) = d.ridx (ridxPath im.collection)) :
    im.SavedIn d' where
  idx e he := by
    rw [hidx _ (List.mem_map_of_mem (List.mem_map_of_mem he))]
    exact h.idx e he
  ridx := hridx.trans h.ridx

/-- The reverse index is read back as it was saved. -/
theorem readRidx_ridxPayload (path : String) : readRidx path im.ridxPayload = .ok im.reverse := by
  show Except.ok (InvertedIndex.ofEntries (OrdDict.ofList im.reverse.toList).entries) = _
  rw [OrdDict.entries_ofList_of_nodup im.reverse.nodup_keys, InvertedIndex.ofEntries_toList]

/-- Saved indexes are loaded as they were. -/
theorem SavedIn.loaded (h : im.SavedIn d) (env : Env) :
    (new im.collection im.specs).loaded env d = im := by
  show IndexManager.mk im.collection _ _ = IndexManager.mk im.collection im.indexes im.reverse
  congr 1
  · rw [new, specs, List.map_map, List.map_map]
    refine (List.map_congr_left fun e he => ?_).trans (List.map_id _)
    simp only [Function.comp_apply, h.idx e he, readIdx_idxPayload, Except.toOption,
      Option.getD_some, id_eq]
  · have hridx : d.ridx (ridxPath (new im.collection im.specs).collection) = _ := h.ridx
    simp only [hridx, readRidx_ridxPayload, Except.toOption, Option.getD_some]

/-- Saved indexes are text. -/
theorem SavedIn.readable (h : im.SavedIn d) : Readable d im.collection im.specs := by
  refine ⟨fun spec hspec => ?_, ?_⟩
  · obtain ⟨e, he, rfl⟩ := List.mem_map.mp hspec
    rw [h.idx e he]
    rfl
  · rw [h.ridx]
    rfl

/-- A manager loads from its own files only. -/
theorem loaded_congr (hidx : ∀ path ∈ idxPaths im.collection im.specs, d'.idx path = d.idx path)
    (hridx : d'.ridx (ridxPath im.collection) = d.ridx (ridxPath im.collection)) :
    im.loaded env d' = im.loaded env d := by
  have hindexes : ∀ e ∈ im.indexes,
      d'.idx (idxPath im.collection e.1) = d.idx (idxPath im.collection e.1) := fun e he =>
    hidx _ (List.mem_map_of_mem (List.mem_map_of_mem he))
  simp only [IndexManager.loaded, hridx]
  congr 1
  refine List.map_congr_left fun e he => ?_
  simp only [hindexes e he]

theorem readable_congr {c : String} {specs : List IndexSpec}
    (hidx : ∀ path ∈ idxPaths c specs, d'.idx path = d.idx path)
    (hridx : d'.ridx (ridxPath c) = d.ridx (ridxPath c)) :
    Readable d' c specs ↔ Readable d c specs := by
  rw [Readable, Readable, hridx]
  refine and_congr_left fun _ => forall₂_congr fun spec hspec => ?_
  rw [hidx _ (List.mem_map_of_mem hspec)]

@[simp] theorem collection_loaded (env : Env) (d : Disk) :
    (im.loaded env d).collection = im.collection := rfl

end IndexManager

/-! ### One collection -/

/-- One of the index files of a collection is missing. -/
def MissingIdx (disk : Disk) (name : String) (specs : List IndexSpec) : Prop :=
  (specs.any fun spec => (disk.idx (IndexManager.idxPath name spec)).isNone) = true

instance (disk : Disk) (name : String) (specs : List IndexSpec) :
    Decidable (MissingIdx disk name specs) := inferInstanceAs (Decidable (_ = true))

section OneCollection

variable {env : Env} {d d' : Disk} {name : String} {specs : List IndexSpec} {im : IndexManager}

theorem missingIdx_iff : MissingIdx d name specs ↔
    ∃ spec ∈ specs, d.idx (IndexManager.idxPath name spec) = none := by
  simp [MissingIdx]

theorem openedIndexes_of_missing (h : MissingIdx d name specs) (env : Env) :
    openedIndexes env d name specs =
      (IndexManager.new name specs).rebuild (DocumentStore.rows (tables d name)) := by
  have hload : ((IndexManager.new name specs).loaded env d).specs =
      (IndexManager.new name specs).specs := IndexManager.specs_loaded _ env d
  have hopened : openedIndexes env d name specs =
      ((IndexManager.new name specs).loaded env d).rebuild
        (DocumentStore.rows (tables d name)) := if_pos h
  rw [hopened, IndexManager.rebuild_eq, IndexManager.rebuild_eq, hload]
  rfl

theorem openedIndexes_of_not_missing (h : ¬MissingIdx d name specs) (env : Env) :
    openedIndexes env d name specs = (IndexManager.new name specs).loaded env d :=
  if_neg h

theorem collection_openedIndexes (env : Env) (d : Disk) (name : String) (specs : List IndexSpec) :
    (openedIndexes env d name specs).collection = name := by
  rw [openedIndexes]
  split
  · rw [IndexManager.collection_rebuild]
    rfl
  · rfl

/-- What opening finds of a collection depends on its own files. -/
theorem missingIdx_congr
    (hidx : ∀ path ∈ IndexManager.idxPaths name specs, d'.idx path = d.idx path) :
    MissingIdx d' name specs ↔ MissingIdx d name specs := by
  simp only [missingIdx_iff]
  refine exists_congr fun spec => and_congr_right fun hspec => ?_
  rw [hidx _ (List.mem_map_of_mem hspec)]

theorem openedIndexes_congr
    (hidx : ∀ path ∈ IndexManager.idxPaths name specs, d'.idx path = d.idx path)
    (hridx : d'.ridx (IndexManager.ridxPath name) = d.ridx (IndexManager.ridxPath name))
    (htables : tables d' name = tables d name) :
    openedIndexes env d' name specs = openedIndexes env d name specs := by
  rcases Decidable.em (MissingIdx d name specs) with h | h
  · rw [openedIndexes_of_missing h, openedIndexes_of_missing ((missingIdx_congr hidx).mpr h),
      htables]
  · rw [openedIndexes_of_not_missing h,
      openedIndexes_of_not_missing fun h' => h ((missingIdx_congr hidx).mp h')]
    apply IndexManager.loaded_congr _ hridx
    rw [IndexManager.specs_new]
    exact hidx

/-- Saved indexes are opened as they were. -/
theorem IndexManager.SavedIn.not_missing (h : im.SavedIn d) :
    ¬MissingIdx d im.collection im.specs := by
  rw [missingIdx_iff]
  rintro ⟨spec, hspec, hnone⟩
  obtain ⟨e, he, rfl⟩ := List.mem_map.mp hspec
  rw [h.idx e he] at hnone
  cases hnone

theorem IndexManager.SavedIn.openedIndexes (h : im.SavedIn d) (env : Env) :
    openedIndexes env d im.collection im.specs = im := by
  rw [openedIndexes_of_not_missing h.not_missing, h.loaded]

end OneCollection

/-! ### The registry -/

/-- No two collections share an index file. -/
def SeparateFiles (reg : Catalog) : Prop :=
  reg.entries.Pairwise fun e e' =>
    (IndexManager.idxPaths e.1 e.2).Disjoint (IndexManager.idxPaths e'.1 e'.2)

/-- No two indexes share a file. -/
def DistinctFiles (reg : Catalog) : Prop :=
  (reg.entries.flatMap fun e => IndexManager.idxPaths e.1 e.2).Nodup

instance (reg : Catalog) : Decidable (DistinctFiles reg) :=
  inferInstanceAs (Decidable (List.Nodup _))

theorem DistinctFiles.separate {reg : Catalog} (h : DistinctFiles reg) : SeparateFiles reg :=
  (List.nodup_flatMap.mp h).2

theorem DistinctFiles.nodup {reg : Catalog} (h : DistinctFiles reg) {c : String}
    {specs : List IndexSpec} (hc : reg.get? c = some specs) :
    (IndexManager.idxPaths c specs).Nodup := by
  have hall : ∀ e ∈ reg.entries, (IndexManager.idxPaths e.1 e.2).Nodup :=
    (List.nodup_flatMap.mp h).1
  exact hall (c, specs) (OrdDict.mem_entries_iff.mpr hc)

/-- The index files of two collections. -/
theorem SeparateFiles.notMem {reg : Catalog} (h : SeparateFiles reg) {c c' : String}
    {specs specs' : List IndexSpec} (hne : c ≠ c') (hc : reg.get? c = some specs)
    (hc' : reg.get? c' = some specs') :
    ∀ path ∈ IndexManager.idxPaths c specs, path ∉ IndexManager.idxPaths c' specs' := by
  have hsymm : Std.Symm fun e e' : String × List IndexSpec =>
      (IndexManager.idxPaths e.1 e.2).Disjoint (IndexManager.idxPaths e'.1 e'.2) :=
    ⟨fun _ _ hd => List.disjoint_comm.mp hd⟩
  have hdisjoint := List.Pairwise.forall h (OrdDict.mem_entries_iff.mpr hc)
    (OrdDict.mem_entries_iff.mpr hc') fun heq => hne (congrArg Prod.fst heq)
  exact fun path hpath hpath' => hdisjoint hpath hpath'

section Registry

variable {env : Env} {mem : Registry} {d : Disk} {l : List (String × List IndexSpec)}

/-- The writes of loading some collections: those of the rebuilt ones. -/
def loadWrites (env : Env) (d : Disk) (l : List (String × List IndexSpec)) : List DiskWrite :=
  l.flatMap fun e => if MissingIdx d e.1 e.2 then (openedIndexes env d e.1 e.2).saveWrites else []

/-- Loading a collection writes index files only. -/
theorem sameData_turn (env : Env) (d : Disk) (e : String × List IndexSpec) :
    d.SameData (applyAll d
      (if MissingIdx d e.1 e.2 then (openedIndexes env d e.1 e.2).saveWrites else [])) := by
  refine Disk.sameData_applyAll (fun dw hdw => ?_) d
  split at hdw
  · exact IndexManager.isIndex_saveWrites _ dw hdw
  · cases hdw

/-- What one collection writes, the others do not read. -/
theorem files_after_load (env : Env) (d : Disk) {e e' : String × List IndexSpec}
    (hne : e'.1 ≠ e.1)
    (hsep : (IndexManager.idxPaths e.1 e.2).Disjoint (IndexManager.idxPaths e'.1 e'.2)) :
    let d' := applyAll d (if MissingIdx d e.1 e.2 then (openedIndexes env d e.1 e.2).saveWrites
      else [])
    (∀ path ∈ IndexManager.idxPaths e'.1 e'.2, d'.idx path = d.idx path) ∧
      d'.ridx (IndexManager.ridxPath e'.1) = d.ridx (IndexManager.ridxPath e'.1) := by
  intro d'
  have hcollection := collection_openedIndexes env d e.1 e.2
  have hspecs := specs_openedIndexes env d e.1 e.2
  constructor
  · intro path hpath
    simp only [d']
    split
    · apply IndexManager.idx_saveWrites_of_notMem
      rw [hcollection, hspecs]
      exact fun hmem => hsep hmem hpath
    · rfl
  · simp only [d']
    split
    · apply IndexManager.ridx_saveWrites_of_ne
      rw [hcollection]
      exact hne
    · rfl

theorem openedIndexes_after_load {e e' : String × List IndexSpec} (hne : e'.1 ≠ e.1)
    (hsep : (IndexManager.idxPaths e.1 e.2).Disjoint (IndexManager.idxPaths e'.1 e'.2)) :
    let d' := applyAll d (if MissingIdx d e.1 e.2 then (openedIndexes env d e.1 e.2).saveWrites
      else [])
    openedIndexes env d' e'.1 e'.2 = openedIndexes env d e'.1 e'.2 ∧
      (MissingIdx d' e'.1 e'.2 ↔ MissingIdx d e'.1 e'.2) := by
  intro d'
  have hsame : d.SameData d' := sameData_turn env d e
  obtain ⟨hidx, hridx⟩ := files_after_load env d hne hsep
  exact ⟨openedIndexes_congr hidx hridx (congrFun (tables_congr hsame) _), missingIdx_congr hidx⟩

/-- **Loading the collections of a catalog.**  Each is registered with what its
own files said before the loop. -/
theorem run_loadEntries (env : Env)
    (hfiles : ∀ e ∈ l, (d.jsonl (jsonlPath e.1)).isSome)
    (htext : ∀ e ∈ l, IndexManager.Readable d e.1 e.2)
    (hkeys : (l.map Prod.fst).Nodup)
    (hsep : l.Pairwise fun e e' =>
      (IndexManager.idxPaths e.1 e.2).Disjoint (IndexManager.idxPaths e'.1 e'.2)) :
    (l.forM fun e => loadCollection e.1 e.2).run env ⟨mem, d⟩ =
      ⟨.ok (), mem.assign (l.map fun e => (e.1, openedIndexes env d e.1 e.2)),
        loadWrites env d l⟩ := by
  induction l generalizing mem d with
  | nil => rfl
  | cons e l ih =>
      rw [List.map_cons, List.nodup_cons] at hkeys
      rw [List.pairwise_cons] at hsep
      have hfile : ((⟨mem, d⟩ : Database).disk.jsonl (jsonlPath e.1)).isSome :=
        hfiles e List.mem_cons_self
      have hrun : (loadCollection e.1 e.2).run env ⟨mem, d⟩ =
          ⟨.ok (), mem.set e.1 (openedIndexes env d e.1 e.2), if MissingIdx d e.1 e.2 then
            (openedIndexes env d e.1 e.2).saveWrites else []⟩ :=
        run_loadCollection env hfile (htext e List.mem_cons_self)
      set ws := if MissingIdx d e.1 e.2 then (openedIndexes env d e.1 e.2).saveWrites else []
      -- the rest of the loop reads files that this turn has not written
      have hafter : ∀ e' ∈ l,
          openedIndexes env (applyAll d ws) e'.1 e'.2 = openedIndexes env d e'.1 e'.2 ∧
            (MissingIdx (applyAll d ws) e'.1 e'.2 ↔ MissingIdx d e'.1 e'.2) := fun e' he' =>
        openedIndexes_after_load (fun heq => hkeys.1 (heq ▸ List.mem_map_of_mem he'))
          (hsep.1 e' he')
      have hfiles' : ∀ e' ∈ l, ((applyAll d ws).jsonl (jsonlPath e'.1)).isSome := by
        intro e' he'
        rw [(sameData_turn env d e).jsonl]
        exact hfiles e' (List.mem_cons_of_mem _ he')
      have htext' : ∀ e' ∈ l, IndexManager.Readable (applyAll d ws) e'.1 e'.2 := fun e' he' =>
        (htext e' (List.mem_cons_of_mem _ he')).keep (sameData_turn env d e).text
      have hmap : l.map (fun e => (e.1, openedIndexes env (applyAll d ws) e.1 e.2)) =
          l.map fun e => (e.1, openedIndexes env d e.1 e.2) :=
        List.map_congr_left fun e' he' => by rw [(hafter e' he').1]
      have hwrites : loadWrites env (applyAll d ws) l = loadWrites env d l := by
        refine List.flatMap_congr fun e' he' => ?_
        rw [(hafter e' he').1]
        exact if_congr (hafter e' he').2 rfl rfl
      show (loadCollection e.1 e.2 >>= fun _ => l.forM fun e => loadCollection e.1 e.2).run env
        ⟨mem, d⟩ = _
      rw [Prog.run_bind_ok hrun]
      show ((l.forM fun e => loadCollection e.1 e.2).run env ⟨_, applyAll d ws⟩).after ws = _
      rw [ih hfiles' htext' hkeys.2 hsep.2, hmap, hwrites]
      rfl

/-- A collection with an index file that is no text cannot be loaded. -/
theorem run_loadCollection_of_not_readable {w : Database} {name : String}
    {specs : List IndexSpec} (env : Env) (h : ¬IndexManager.Readable w.disk name specs) :
    ∃ msg, (loadCollection name specs).run env w =
      ⟨.error (.unicodeDecodeError msg), w.mem, []⟩ := by
  obtain ⟨msg, hload⟩ : ∃ msg, (IndexManager.new name specs).loadFrom env w.disk =
      .error (.unicodeDecodeError msg) := by
    refine IndexManager.loadFrom_of_not_readable (fun htext => h ?_) env
    rw [IndexManager.specs_new] at htext
    exact htext
  refine ⟨msg, ?_⟩
  rw [loadCollection, Prog.run_bind_read (Prog.run_env env w),
    Prog.run_bind_read (Prog.run_getDisk env w), hload]
  rfl

/-- **An index file that is no text** stops the loop, wherever its collection stands. -/
theorem loadEntries_raises (env : Env)
    (hfiles : ∀ e ∈ l, (d.jsonl (jsonlPath e.1)).isSome)
    (hkeys : (l.map Prod.fst).Nodup)
    (hsep : l.Pairwise fun e e' =>
      (IndexManager.idxPaths e.1 e.2).Disjoint (IndexManager.idxPaths e'.1 e'.2))
    (hbad : ∃ e ∈ l, ¬IndexManager.Readable d e.1 e.2) :
    ∃ msg, (l.forM fun e => loadCollection e.1 e.2).value env ⟨mem, d⟩ =
      .error (.unicodeDecodeError msg) := by
  induction l generalizing mem d with
  | nil =>
      obtain ⟨e, he, -⟩ := hbad
      cases he
  | cons e l ih =>
      rw [List.map_cons, List.nodup_cons] at hkeys
      rw [List.pairwise_cons] at hsep
      show ∃ msg, (loadCollection e.1 e.2 >>= fun _ =>
        l.forM fun e => loadCollection e.1 e.2).value env ⟨mem, d⟩ = _
      by_cases htext : IndexManager.Readable d e.1 e.2
      · -- this one is loaded, and writes no file of the others
        have hrun := run_loadCollection (w := ⟨mem, d⟩) env (hfiles e List.mem_cons_self) htext
        have hok : (loadCollection e.1 e.2).value env ⟨mem, d⟩ = .ok () :=
          congrArg Outcome.result hrun
        rw [Prog.value_bind_ok hok, Prog.exec_of_run hrun]
        refine ih (fun e' he' => ?_) hkeys.2 hsep.2 ?_
        · show ((applyAll d (if MissingIdx d e.1 e.2 then _ else _)).jsonl _).isSome
          rw [(sameData_turn env d e).jsonl]
          exact hfiles e' (List.mem_cons_of_mem _ he')
        · obtain ⟨e', he', hbad'⟩ := hbad
          obtain rfl | he' := List.mem_cons.mp he'
          · exact absurd htext hbad'
          · have hne : e'.1 ≠ e.1 := fun heq => hkeys.1 (heq ▸ List.mem_map_of_mem he')
            obtain ⟨hidx, hridx⟩ := files_after_load env d hne (hsep.1 e' he')
            exact ⟨e', he', fun h => hbad' ((IndexManager.readable_congr hidx hridx).mp h)⟩
      · obtain ⟨msg, hrun⟩ := run_loadCollection_of_not_readable (w := ⟨mem, d⟩) env htext
        exact ⟨msg, Prog.value_bind_error (congrArg Outcome.result hrun)⟩

/-- The registry opening makes of a directory. -/
def openedRegistry (env : Env) (d : Disk) (reg : Catalog) : Registry :=
  OrdDict.ofList (reg.entries.map fun e => (e.1, openedIndexes env d e.1 e.2))

variable {reg : Catalog} {T : String → Table}

theorem entries_openedRegistry (env : Env) (d : Disk) (reg : Catalog) :
    (openedRegistry env d reg).entries =
      reg.entries.map fun e => (e.1, openedIndexes env d e.1 e.2) := by
  apply OrdDict.entries_ofList_of_nodup
  rw [List.map_map]
  exact reg.nodup

theorem get?_openedRegistry {c : String} {specs : List IndexSpec} (hc : reg.get? c = some specs)
    (env : Env) (d : Disk) :
    (openedRegistry env d reg).get? c = some (openedIndexes env d c specs) := by
  rw [← OrdDict.mem_entries_iff, entries_openedRegistry]
  exact List.mem_map_of_mem (OrdDict.mem_entries_iff.mpr hc)

theorem sameData_loadWrites (env : Env) (d : Disk) (l : List (String × List IndexSpec)) :
    d.SameData (applyAll d (loadWrites env d l)) := by
  refine Disk.sameData_applyAll (fun dw hdw => ?_) d
  obtain ⟨e, -, he⟩ := List.mem_flatMap.mp hdw
  split at he
  · exact IndexManager.isIndex_saveWrites _ dw he
  · cases he

/-- **Opening a directory without logs.** -/
theorem run_init (env : Env) (h : Holds reg OrdDict.empty T d) (hsep : SeparateFiles reg) :
    init.run env ⟨OrdDict.empty, d⟩ =
      ⟨.ok (), openedRegistry env d reg, loadWrites env d reg.entries⟩ := by
  have hload : loadManifest.run env ⟨OrdDict.empty, d⟩ =
      ⟨.ok (), openedRegistry env d reg, loadWrites env d reg.entries⟩ := by
    rw [run_loadManifest env h.manifest]
    exact run_loadEntries env (fun e he => h.files e.1 (List.mem_map_of_mem he)) h.text reg.nodup
      hsep
  have hwal : (applyAll d (loadWrites env d reg.entries)).wal = OrdDict.empty :=
    (sameData_loadWrites env d reg.entries).wal.trans h.wal
  rw [init, Prog.run_bind_ok hload, run_recoverWal_nil env hwal]
  simp [Outcome.after]

end Registry

end JsonpySql
