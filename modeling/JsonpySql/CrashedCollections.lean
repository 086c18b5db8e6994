/-
JsonpySql/CrashedCollections.lean

Crashes while a collection is created or dropped.

The manifest is replaced last in both.  A creation that was interrupted is not
registered, but its document file is there, and the name can then be neither
created nor dropped (`interrupted_create`).  A drop that was interrupted is still
registered, but its document file is gone: once an index file is gone as well,
opening tries to rebuild the indexes, and raises (`interrupted_drop`).
-/
import JsonpySql.Reopening

namespace JsonpySql

open StorageEngine

variable {env : Env} {w : Database} {name : String} {specs : List IndexSpec} {im : IndexManager}
  {d : Disk}

/-! ### Opening -/

/-- A collection none of whose index files is missing is loaded unread. -/
theorem run_loadCollection_of_present (env : Env) (h : ¬MissingIdx w.disk name specs)
    (htext : IndexManager.Readable w.disk name specs) :
    (loadCollection name specs).run env w =
      ⟨.ok (), w.mem.set name (openedIndexes env w.disk name specs), []⟩ := by
  rw [loadCollection, Prog.run_bind_read (Prog.run_env env w),
    Prog.run_bind_read (Prog.run_getDisk env w), loadFrom_new env htext,
    openedIndexes_of_not_missing h]
  dsimp only
  split
  · next hmissing => exact absurd hmissing h
  · rfl

/-- A collection with a missing index file is read, and raises without its document
file. -/
theorem run_loadCollection_of_broken (env : Env) (h : MissingIdx w.disk name specs)
    (htext : IndexManager.Readable w.disk name specs)
    (hfile : w.disk.jsonl (jsonlPath name) = none) :
    (loadCollection name specs).run env w = ⟨.error (.storageError ("Read failed for " ++
      env.path (jsonlPath name) ++ ": " ++ env.noSuchFile (jsonlPath name))), w.mem, []⟩ := by
  have hscan : (DocumentStore.scan (jsonlPath name) : EngineM _).run env w =
      ⟨.error (.storageError ("Read failed for " ++ env.path (jsonlPath name) ++ ": " ++
        env.noSuchFile (jsonlPath name))), w.mem, []⟩ := by
    refine Prog.run_bind_error ?_
    rw [DocumentStore.iterLines, Prog.run_bind_read (Prog.run_env env w),
      Prog.run_bind_read (Prog.run_getDisk env w)]
    simp only [hfile]
    rfl
  rw [loadCollection, Prog.run_bind_read (Prog.run_env env w),
    Prog.run_bind_read (Prog.run_getDisk env w), loadFrom_new env htext]
  dsimp only
  split
  · exact Prog.run_bind_error hscan
  · next hpresent => exact absurd h hpresent

theorem run_loadEntries_of_present (env : Env) {mem : Registry}
    {l : List (String × List IndexSpec)} (h : ∀ e ∈ l, ¬MissingIdx d e.1 e.2)
    (htext : ∀ e ∈ l, IndexManager.Readable d e.1 e.2) :
    (l.forM fun e => loadCollection e.1 e.2).run env ⟨mem, d⟩ =
      ⟨.ok (), mem.assign (l.map fun e => (e.1, openedIndexes env d e.1 e.2)), []⟩ := by
  induction l generalizing mem with
  | nil => rfl
  | cons e l ih =>
      have hrun := run_loadCollection_of_present (w := ⟨mem, d⟩) env (h e List.mem_cons_self)
        (htext e List.mem_cons_self)
      show (loadCollection e.1 e.2 >>= fun _ => l.forM fun e => loadCollection e.1 e.2).run env
        ⟨mem, d⟩ = _
      rw [Prog.run_bind_ok hrun]
      show ((l.forM fun e => loadCollection e.1 e.2).run env ⟨_, d⟩).after [] = _
      rw [ih (fun e' he' => h e' (List.mem_cons_of_mem _ he'))
        fun e' he' => htext e' (List.mem_cons_of_mem _ he')]
      rfl

variable {reg : Catalog}

/-- **Opening a directory where no index file is missing** reads no documents. -/
theorem run_init_of_present (env : Env) (hmanifest : d.Registers reg)
    (hlogs : d.wal = OrdDict.empty) (h : ∀ e ∈ reg.entries, ¬MissingIdx d e.1 e.2)
    (htext : ∀ e ∈ reg.entries, IndexManager.Readable d e.1 e.2) :
    init.run env ⟨OrdDict.empty, d⟩ = ⟨.ok (), openedRegistry env d reg, []⟩ := by
  have hload : loadManifest.run env ⟨OrdDict.empty, d⟩ =
      ⟨.ok (), openedRegistry env d reg, []⟩ := by
    rw [run_loadManifest env hmanifest]
    exact run_loadEntries_of_present env h htext
  rw [init, Prog.run_bind_ok hload, run_recoverWal_nil env hlogs]
  rfl

theorem run_loadEntries_of_broken (env : Env) (mem : Registry)
    {l : List (String × List IndexSpec)} (htext : ∀ e ∈ l, IndexManager.Readable d e.1 e.2)
    (hmem : (name, specs) ∈ l) (hmissing : MissingIdx d name specs)
    (hfile : d.jsonl (jsonlPath name) = none)
    (hothers : ∀ e ∈ l, e ≠ (name, specs) → ¬MissingIdx d e.1 e.2) :
    ∃ mem', (l.forM fun e => loadCollection e.1 e.2).run env ⟨mem, d⟩ =
      ⟨.error (.storageError ("Read failed for " ++ env.path (jsonlPath name) ++ ": " ++
        env.noSuchFile (jsonlPath name))), mem', []⟩ := by
  induction l generalizing mem with
  | nil => cases hmem
  | cons e l ih =>
      by_cases he : e = (name, specs)
      · subst he
        exact ⟨mem, Prog.run_bind_error
          (run_loadCollection_of_broken (w := ⟨mem, d⟩) env hmissing
            (htext _ List.mem_cons_self) hfile)⟩
      · -- the collections before it are loaded
        have hrun := run_loadCollection_of_present (w := ⟨mem, d⟩) env
          (hothers e List.mem_cons_self he) (htext e List.mem_cons_self)
        obtain ⟨mem', hrest⟩ := ih (mem.set e.1 (openedIndexes env d e.1 e.2))
          (fun e' he' => htext e' (List.mem_cons_of_mem _ he'))
          ((List.mem_cons.mp hmem).resolve_left (Ne.symm he))
          fun e' he' => hothers e' (List.mem_cons_of_mem _ he')
        refine ⟨mem', ?_⟩
        show (loadCollection e.1 e.2 >>= fun _ => l.forM fun e => loadCollection e.1 e.2).run env
          ⟨mem, d⟩ = _
        rw [Prog.run_bind_ok hrun]
        show ((l.forM fun e => loadCollection e.1 e.2).run env ⟨_, d⟩).after [] = _
        rw [hrest]
        rfl

/-- **Opening a directory with one broken collection** raises and writes nothing. -/
theorem run_init_of_broken (env : Env) (hmanifest : d.Registers reg)
    (htext : ∀ e ∈ reg.entries, IndexManager.Readable d e.1 e.2)
    (hc : reg.get? name = some specs) (hmissing : MissingIdx d name specs)
    (hfile : d.jsonl (jsonlPath name) = none)
    (hothers : ∀ e ∈ reg.entries, e.1 ≠ name → ¬MissingIdx d e.1 e.2) :
    ∃ mem, init.run env ⟨OrdDict.empty, d⟩ = ⟨.error (.storageError ("Read failed for " ++
      env.path (jsonlPath name) ++ ": " ++ env.noSuchFile (jsonlPath name))), mem, []⟩ := by
  obtain ⟨mem, hload⟩ := run_loadEntries_of_broken env OrdDict.empty htext
    (OrdDict.mem_entries_iff.mpr hc) hmissing hfile fun e he hne => by
      refine hothers e he fun hname => hne (Prod.ext hname ?_)
      have hget : reg.get? e.1 = some e.2 := OrdDict.mem_entries_iff.mp he
      rw [hname, hc] at hget
      exact (Option.some.inj hget).symm
  exact ⟨mem, Prog.run_bind_error ((run_loadManifest env hmanifest).trans hload)⟩

/-! ### What one collection writes -/

/-- A write to the files of one collection. -/
def DiskWrite.Own (name : String) (specs : List IndexSpec) : DiskWrite → Prop
  | .touchJsonl file | .unlinkJsonl file => file = jsonlPath name
  | .replaceIdx path _ | .unlinkIdx path => path ∈ IndexManager.idxPaths name specs
  | .replaceRidx path _ | .unlinkRidx path => path = IndexManager.ridxPath name
  | _ => False

/-- Directories that differ in the files of one collection. -/
structure SameElsewhere (name : String) (specs : List IndexSpec) (d d' : Disk) : Prop where
  manifest : d'.manifest = d.manifest
  wal : d'.wal = d.wal
  jsonl : ∀ file, file ≠ jsonlPath name → d'.jsonl file = d.jsonl file
  idx : ∀ path, path ∉ IndexManager.idxPaths name specs → d'.idx path = d.idx path
  ridx : ∀ path, path ≠ IndexManager.ridxPath name → d'.ridx path = d.ridx path

theorem SameElsewhere.write {d d' : Disk} (h : SameElsewhere name specs d d') {dw : DiskWrite}
    (hdw : dw.Own name specs) : SameElsewhere name specs d (d'.write dw) := by
  cases dw with
  | touchJsonl file | unlinkJsonl file =>
      obtain rfl : file = jsonlPath name := hdw
      refine { h with jsonl := fun file hne => ?_ }
      exact (Function.update_of_ne hne _ _).trans (h.jsonl file hne)
  | replaceIdx path | unlinkIdx path =>
      refine { h with idx := fun path' hnot => ?_ }
      have hne : path' ≠ path := fun heq => hnot (heq.symm ▸ hdw)
      exact (Function.update_of_ne hne _ _).trans (h.idx path' hnot)
  | replaceRidx path | unlinkRidx path =>
      obtain rfl : path = IndexManager.ridxPath name := hdw
      refine { h with ridx := fun path hne => ?_ }
      exact (Function.update_of_ne hne _ _).trans (h.ridx path hne)
  | appendJsonl | replaceJsonl | replaceManifest | appendWal | unlinkWal => cases hdw

theorem sameElsewhere_applyAll {ws : List DiskWrite} (h : ∀ dw ∈ ws, dw.Own name specs) :
    SameElsewhere name specs d (applyAll d ws) :=
  applyAll_induction ⟨rfl, rfl, fun _ _ => rfl, fun _ _ => rfl, fun _ _ => rfl⟩
    fun dw hdw _ hd => hd.write (h dw hdw)

theorem own_saveWrites (im : IndexManager) :
    ∀ dw ∈ im.saveWrites, dw.Own im.collection im.specs := by
  intro dw hdw
  rw [IndexManager.saveWrites, List.mem_append, List.mem_map, List.mem_singleton] at hdw
  obtain ⟨e, he, rfl⟩ | rfl := hdw
  · exact List.mem_map_of_mem (List.mem_map_of_mem he)
  · rfl

theorem own_unlinkWrites (im : IndexManager) :
    ∀ dw ∈ im.unlinkWrites, dw.Own im.collection im.specs := by
  intro dw hdw
  rw [IndexManager.unlinkWrites, List.mem_append, List.mem_map, List.mem_singleton] at hdw
  obtain ⟨e, he, rfl⟩ | rfl := hdw
  · exact List.mem_map_of_mem (List.mem_map_of_mem he)
  · rfl

/-- The indexes of another collection stay saved. -/
theorem SameElsewhere.savedIn {d d' : Disk} (h : SameElsewhere name specs d d')
    (hsaved : im.SavedIn d) (hne : im.collection ≠ name)
    (hfiles : ∀ path ∈ IndexManager.idxPaths im.collection im.specs,
      path ∉ IndexManager.idxPaths name specs) : im.SavedIn d' :=
  hsaved.congr (fun path hpath => h.idx path (hfiles path hpath))
    (h.ridx _ fun heq => hne (IndexManager.ridxPath_injective heq))

/-- All but the last of some writes. -/
theorem mem_of_mem_take {ws : List DiskWrite} {last dw : DiskWrite} {k : ℕ} (hk : k ≤ ws.length)
    (h : dw ∈ (ws ++ [last]).take k) : dw ∈ ws := by
  rw [List.take_append_of_le_length hk] at h
  exact List.mem_of_mem_take h

/-- An engine whose files are untouched is still saved. -/
theorem Saved.elsewhere (h : Saved w) (hd : SameElsewhere name specs w.disk d)
    (hname : name ∉ w.mem.keys)
    (hdistinct : DistinctFiles (catalog (w.mem.set name (IndexManager.new name specs)))) :
    Saved ⟨w.mem, d⟩ where
  serving c hc := by
    have hne : c ≠ name := fun heq => hname (heq ▸ hc)
    rw [hd.jsonl _ fun heq => hne (jsonlPath_injective heq)]
    exact h.serving c hc
  manifest := h.manifest.congr hd.manifest
  named := h.named
  indexes c im him := by
    have hne : c ≠ name := fun heq => hname (heq ▸ OrdDict.mem_keys_of_get? him)
    have hcollection := h.named c im him
    apply hd.savedIn (h.indexes c im him) (hcollection ▸ hne)
    rw [hcollection]
    -- the index files of the two are different files
    apply hdistinct.separate.notMem hne
    · exact get?_catalog (w := ⟨w.mem.set name _, d⟩) ((OrdDict.get?_set_of_ne _ _ hne).trans him)
    · have hnew := get?_catalog (w := ⟨w.mem.set name (IndexManager.new name specs), d⟩)
        (OrdDict.get?_set_self _ _ _)
      rwa [IndexManager.specs_new] at hnew
  distinct := h.distinct

/-! ### Creating -/

/-- The writes that create a collection. -/
def createWrites (w : Database) (name : String) (specs : List IndexSpec) : List DiskWrite :=
  .touchJsonl (jsonlPath name) :: ((IndexManager.new name specs).saveWrites ++
    [.replaceManifest (.payload
      ((w.mem.set name (IndexManager.new name specs)).mapValues IndexManager.specs))])

theorem length_saveWrites_new (name : String) (specs : List IndexSpec) :
    (IndexManager.new name specs).saveWrites.length = specs.length + 1 := by
  rw [IndexManager.saveWrites, IndexManager.new, List.length_append, List.length_map,
    List.length_map, List.length_singleton]

theorem length_createWrites (w : Database) (name : String) (specs : List IndexSpec) :
    (createWrites w name specs).length = specs.length + 3 := by
  rw [createWrites, List.length_cons, List.length_append, length_saveWrites_new,
    List.length_singleton]

theorem run_createCollection_new (env : Env) (specs : List IndexSpec) (drop : Bool)
    (hname : name ∉ w.mem.keys) (hfile : w.disk.jsonl (jsonlPath name) = none) :
    (createCollection name specs drop).run env w =
      ⟨.ok (), w.mem.set name (IndexManager.new name specs), createWrites w name specs⟩ :=
  (run_createCollection_of_notMem env specs drop hname).trans (run_registerNew env specs hfile)

/-- Before the manifest, only files of the collection are written. -/
theorem sameElsewhere_create {k : ℕ} (hk : k < specs.length + 3) :
    SameElsewhere name specs w.disk (applyAll w.disk ((createWrites w name specs).take k)) := by
  apply sameElsewhere_applyAll
  intro dw hdw
  have hmem : dw ∈ .touchJsonl (jsonlPath name) :: (IndexManager.new name specs).saveWrites := by
    apply mem_of_mem_take _ hdw
    rw [List.length_cons, length_saveWrites_new]
    omega
  rcases List.mem_cons.mp hmem with rfl | hsave
  · rfl
  · have hown := own_saveWrites _ dw hsave
    rwa [IndexManager.specs_new] at hown

/-- The document file is made first. -/
theorem isSome_create {k : ℕ} (hpos : 0 < k) :
    ((applyAll w.disk ((createWrites w name specs).take k)).jsonl (jsonlPath name)).isSome := by
  obtain ⟨k, rfl⟩ := Nat.exists_eq_succ_of_ne_zero hpos.ne'
  rw [createWrites, List.take_succ_cons, applyAll_cons]
  refine applyAll_induction (P := fun d : Disk => (d.jsonl (jsonlPath name)).isSome) ?_
    fun dw hdw d hd => ?_
  · show (Function.update w.disk.jsonl _ _ _).isSome
    rw [Function.update_self]
    rfl
  · rcases List.mem_append.mp (List.mem_of_mem_take hdw) with hsave | hlast
    · have hindex := IndexManager.isIndex_saveWrites _ dw hsave
      cases dw <;> first | exact hd | cases hindex
    · rw [List.mem_singleton.mp hlast]
      exact hd

/-- **An interrupted creation.**  Wherever the creation of a collection stops
before its last write, opening finds the database as it was before; but once the
document file has been made, the name can neither be created nor dropped any
more. -/
theorem interrupted_create (h : Saved w) (hlogs : w.disk.wal = OrdDict.empty)
    (hname : name ∉ w.mem.keys) (hfile : w.disk.jsonl (jsonlPath name) = none)
    (hdistinct : DistinctFiles (catalog (w.mem.set name (IndexManager.new name specs))))
    (drop : Bool) (k : ℕ) (opener : Env) :
    let d := (createCollection name specs drop).crashAt env w k
    let w' := init.exec opener ⟨OrdDict.empty, d⟩
    init.value opener ⟨OrdDict.empty, d⟩ = .ok () ∧ w'.disk = d ∧
      (specs.length + 3 ≤ k → w' = (createCollection name specs drop).exec env w) ∧
      (k < specs.length + 3 → w'.mem = w.mem ∧
        (∀ c ∈ w.mem.keys, w'.disk.jsonl (jsonlPath c) = w.disk.jsonl (jsonlPath c)) ∧
        (0 < k → ∀ env',
          (∀ specs' drop', (createCollection name specs' drop').run env' w' =
            ⟨.error (.storageError
              ("Document store already exists: " ++ env'.path (jsonlPath name))), w'.mem, []⟩) ∧
          (dropCollection name).run env' w' =
            ⟨.error (.storageError ("Unknown collection: " ++ strRepr name)), w'.mem, []⟩)) := by
  intro d w'
  have hrun := run_createCollection_new env specs drop hname hfile
  have hd : d = applyAll w.disk ((createWrites w name specs).take k) := by
    show applyAll w.disk (((createCollection name specs drop).run env w).writes.take k) = _
    rw [hrun]
  rcases Nat.lt_or_ge k (specs.length + 3) with hk | hk
  · have hsame : SameElsewhere name specs w.disk d := hd ▸ sameElsewhere_create hk
    have hopen := (h.elsewhere hsame hname hdistinct).run_init opener (hsame.wal.trans hlogs)
    have hw' : w' = ⟨w.mem, d⟩ := Prog.exec_of_run hopen
    rw [hw']
    refine ⟨congrArg Outcome.result hopen, rfl, fun hle => absurd hle (by omega),
      fun _ => ⟨rfl, fun c hc => ?_, fun hpos env' => ⟨fun specs' drop' => ?_, ?_⟩⟩⟩
    · apply hsame.jsonl
      exact fun heq => hname (jsonlPath_injective heq ▸ hc)
    · obtain ⟨lines, hlines⟩ := Option.isSome_iff_exists.mp (isSome_create hpos)
      rw [← hd] at hlines
      exact (run_createCollection_of_notMem (w := ⟨w.mem, d⟩) env' specs' drop' hname).trans
        (run_registerNew_of_some hlines)
    · exact Prog.run_bind_error (run_require_of_notMem hname)
  · -- all is written
    have hexec := Prog.exec_of_run hrun
    have hall : d = ((createCollection name specs drop).exec env w).disk := by
      rw [hd, List.take_of_length_le (by rwa [length_createWrites]), hexec]
    have hok : (createCollection name specs drop).value env w = .ok () :=
      congrArg Outcome.result hrun
    have hsaved : Saved ((createCollection name specs drop).exec env w) :=
      h.createCollection hok (by rwa [hexec])
    have hopen := hsaved.run_init opener ((createCollection_spec hok).wal.trans hlogs)
    rw [← hall] at hopen
    have hw' : w' = (createCollection name specs drop).exec env w :=
      (Prog.exec_of_run hopen).trans (congrArg (World.mk _) hall)
    exact ⟨congrArg Outcome.result hopen, hw' ▸ hall.symm, fun _ => hw',
      fun hlt => absurd hk (by omega)⟩

/-- The process stops when the document file has been made. -/
theorem interrupted_create_users :
    let d := (createCollection "users" [⟨["email"], true⟩] false).crashAt onlyClient emptyDb 1
    let w' := init.exec onlyClient ⟨OrdDict.empty, d⟩
    (createCollection "users" [] true).value onlyClient w' = .error (.storageError
      ("Document store already exists: " ++ onlyClient.path "users.jsonl")) := by
  intro d w'
  obtain ⟨-, -, -, hbefore⟩ := @interrupted_create onlyClient emptyDb "users" [⟨["email"], true⟩]
    emptyDb_saved rfl (by decide) rfl (by decide) false 1 onlyClient
  obtain ⟨-, -, hlost⟩ := hbefore (by decide)
  exact congrArg Outcome.result ((hlost Nat.one_pos onlyClient).1 [] true)

/-! ### Dropping -/

/-- The writes that drop a collection. -/
def dropWrites (w : Database) (name : String) (im : IndexManager) : List DiskWrite :=
  .unlinkJsonl (jsonlPath name) :: (im.unlinkWrites ++ [.replaceManifest (.payload
    (((w.mem.set name im).erase name).mapValues IndexManager.specs))])

theorem length_unlinkWrites (im : IndexManager) :
    im.unlinkWrites.length = im.specs.length + 1 := by
  rw [IndexManager.unlinkWrites, IndexManager.specs, List.length_append, List.length_map,
    List.length_map, List.length_singleton]

theorem length_dropWrites (w : Database) (name : String) (im : IndexManager) :
    (dropWrites w name im).length = im.specs.length + 3 := by
  rw [dropWrites, List.length_cons, List.length_append, length_unlinkWrites,
    List.length_singleton]

theorem sameElsewhere_drop (hcollection : im.collection = name) {k : ℕ}
    (hk : k < im.specs.length + 3) :
    SameElsewhere name im.specs w.disk (applyAll w.disk ((dropWrites w name im).take k)) := by
  apply sameElsewhere_applyAll
  intro dw hdw
  have hmem : dw ∈ .unlinkJsonl (jsonlPath name) :: im.unlinkWrites := by
    apply mem_of_mem_take _ hdw
    rw [List.length_cons, length_unlinkWrites]
    omega
  rcases List.mem_cons.mp hmem with rfl | hunlink
  · rfl
  · exact hcollection ▸ own_unlinkWrites im dw hunlink

/-- What follows the removal of the document file makes no file. -/
theorem mem_drop_cases {dw : DiskWrite} {content : ManifestFile}
    (h : dw ∈ im.unlinkWrites ++ [DiskWrite.replaceManifest content]) :
    (∃ path, dw = .unlinkIdx path) ∨ (∃ path, dw = .unlinkRidx path) ∨
      dw = .replaceManifest content := by
  rcases List.mem_append.mp h with hunlink | hlast
  · rw [IndexManager.unlinkWrites, List.mem_append, List.mem_map, List.mem_singleton] at hunlink
    obtain ⟨e, -, rfl⟩ | rfl := hunlink
    · exact .inl ⟨_, rfl⟩
    · exact .inr (.inl ⟨_, rfl⟩)
  · exact .inr (.inr (List.mem_singleton.mp hlast))

/-- The document file goes first. -/
theorem jsonl_drop {k : ℕ} (hpos : 0 < k) :
    (applyAll w.disk ((dropWrites w name im).take k)).jsonl (jsonlPath name) = none := by
  obtain ⟨k, rfl⟩ := Nat.exists_eq_succ_of_ne_zero hpos.ne'
  rw [dropWrites, List.take_succ_cons, applyAll_cons]
  refine applyAll_induction (P := fun d : Disk => d.jsonl (jsonlPath name) = none) ?_
    fun dw hdw d hd => ?_
  · exact Function.update_self _ _ _
  · rcases mem_drop_cases (List.mem_of_mem_take hdw) with ⟨path, rfl⟩ | ⟨path, rfl⟩ | rfl
    all_goals exact hd

/-- What is left of the index files is text. -/
theorem keepsText_drop (w : Database) (name : String) (im : IndexManager) (k : ℕ) :
    w.disk.KeepsText (applyAll w.disk ((dropWrites w name im).take k)) := by
  refine Disk.keepsText_applyAll (fun dw hdw => ?_) w.disk
  rcases List.mem_cons.mp (List.mem_of_mem_take hdw) with rfl | hrest
  · rfl
  · rcases mem_drop_cases hrest with ⟨path, rfl⟩ | ⟨path, rfl⟩ | rfl <;> rfl

/-- Then the index files go, one by one. -/
theorem missingIdx_drop (hsaved : im.SavedIn w.disk) (hcollection : im.collection = name) {k : ℕ}
    (hpos : 0 < k) : MissingIdx (applyAll w.disk ((dropWrites w name im).take k)) name im.specs ↔
      2 ≤ k ∧ im.specs ≠ [] := by
  obtain ⟨k, rfl⟩ := Nat.exists_eq_succ_of_ne_zero hpos.ne'
  rw [dropWrites, List.take_succ_cons, applyAll_cons]
  rcases k with _ | k
  · have hpresent := hsaved.not_missing
    rw [hcollection] at hpresent
    exact iff_of_false hpresent (by simp)
  · rcases hindexes : im.indexes with _ | ⟨e, es⟩
    · have hnil : im.specs = [] := by rw [IndexManager.specs, hindexes, List.map_nil]
      rw [hnil]
      simp [MissingIdx]
    · have hmem : e.1 ∈ im.specs := by
        rw [IndexManager.specs, hindexes]
        exact List.mem_map_of_mem List.mem_cons_self
      refine iff_of_true (missingIdx_iff.mpr ⟨e.1, hmem, ?_⟩)
        ⟨by omega, List.ne_nil_of_mem hmem⟩
      have hfirst : im.unlinkWrites = .unlinkIdx (IndexManager.idxPath name e.1) ::
          (es.map (fun e => DiskWrite.unlinkIdx (IndexManager.idxPath im.collection e.1)) ++
            [.unlinkRidx (IndexManager.ridxPath im.collection)]) := by
        rw [IndexManager.unlinkWrites, hindexes, hcollection]
        rfl
      rw [hfirst, List.cons_append, List.take_succ_cons, applyAll_cons]
      refine applyAll_induction
        (P := fun d : Disk => d.idx (IndexManager.idxPath name e.1) = none) ?_ fun dw hdw d hd => ?_
      · exact Function.update_self _ _ _
      · have hmem' : dw ∈ im.unlinkWrites ++ [.replaceManifest (.payload
            (((w.mem.set name im).erase name).mapValues IndexManager.specs))] := by
          rw [hfirst, List.cons_append]
          exact List.mem_cons_of_mem _ (List.mem_of_mem_take hdw)
        rcases mem_drop_cases hmem' with ⟨path, rfl⟩ | ⟨path, rfl⟩ | rfl
        · show Function.update d.idx path none _ = none
          by_cases hp : IndexManager.idxPath name e.1 = path
          · rw [hp, Function.update_self]
          · rw [Function.update_of_ne hp]
            exact hd
        · exact hd
        · exact hd

/-- Without its document file, a registered collection cannot be read. -/
theorem value_read_of_missing (hc : name ∈ w.mem.keys)
    (hfile : w.disk.jsonl (jsonlPath name) = none) (env : Env) :
    let error := PyErr.storageError ("Cannot open " ++ env.path (jsonlPath name) ++
      " for locking: " ++ env.noSuchFile (jsonlPath name))
    (∀ i, (StorageEngine.get name i).value env w = .error error) ∧
      (StorageEngine.scan name).value env w = .error error := by
  intro error
  have hopen : (LockManager.openFile (jsonlPath name) : EngineM Unit).run env w =
      ⟨.error error, w.mem, []⟩ := by
    rw [LockManager.openFile, Prog.run_bind_read (Prog.run_env env w),
      Prog.run_bind_read (Prog.run_getDisk env w)]
    simp only [hfile]
    rfl
  refine ⟨fun i => ?_, ?_⟩
  · rw [Prog.value, StorageEngine.get, Prog.run_bind_read (run_require hc)]
    exact congrArg Outcome.result (Prog.run_bind_error hopen)
  · rw [Prog.value, StorageEngine.scan, Prog.run_bind_read (run_require hc)]
    exact congrArg Outcome.result (Prog.run_bind_error hopen)

namespace Saved

variable {k : ℕ}

/-- The other collections are still saved. -/
theorem savedIn_elsewhere (h : Saved w) (him : w.mem.get? name = some im)
    (hsame : SameElsewhere name im.specs w.disk d) {c : String} (hne : c ≠ name)
    {im₁ : IndexManager} (him₁ : w.mem.get? c = some im₁) : im₁.SavedIn d := by
  have hcollection := h.named c im₁ him₁
  apply hsame.savedIn (h.indexes c im₁ him₁) (hcollection ▸ hne)
  rw [hcollection]
  exact h.distinct.separate.notMem hne (get?_catalog him₁) (get?_catalog him)

theorem present_elsewhere (h : Saved w) (him : w.mem.get? name = some im)
    (hsame : SameElsewhere name im.specs w.disk d) {e : String × List IndexSpec}
    (he : e ∈ (catalog w.mem).entries) (hne : e.1 ≠ name) : ¬MissingIdx d e.1 e.2 := by
  obtain ⟨c, specs⟩ := e
  obtain ⟨im₁, him₁, rfl⟩ := exists_of_catalog (OrdDict.mem_entries_iff.mp he)
  have hpresent := (h.savedIn_elsewhere him hsame hne him₁).not_missing
  rwa [h.named c im₁ him₁] at hpresent

/-- Opening while all index files are there. -/
theorem run_init_elsewhere (h : Saved w) (him : w.mem.get? name = some im)
    (hlogs : w.disk.wal = OrdDict.empty) (hsame : SameElsewhere name im.specs w.disk d)
    (htext : ∀ e ∈ (catalog w.mem).entries, IndexManager.Readable d e.1 e.2)
    (hpresent : ¬MissingIdx d name im.specs) (opener : Env) :
    ∃ mem, init.run opener ⟨OrdDict.empty, d⟩ = ⟨.ok (), mem, []⟩ ∧ mem.keys = w.mem.keys ∧
      ∀ c ≠ name, mem.get? c = w.mem.get? c := by
  have hkeys : (openedRegistry opener d (catalog w.mem)).keys = w.mem.keys := by
    rw [OrdDict.keys, entries_openedRegistry, List.map_map]
    exact keys_catalog w.mem
  refine ⟨_, run_init_of_present opener (h.manifest.congr hsame.manifest)
    (hsame.wal.trans hlogs) (fun e he => ?_) htext, hkeys, fun c hne => ?_⟩
  · by_cases hne : e.1 = name
    · have hspecs : (catalog w.mem).get? e.1 = some e.2 := OrdDict.mem_entries_iff.mp he
      rw [hne, get?_catalog him] at hspecs
      rw [hne, ← Option.some.inj hspecs]
      exact hpresent
    · exact h.present_elsewhere him hsame he hne
  · rcases him₁ : w.mem.get? c with _ | im₁
    · rw [OrdDict.get?_eq_none_iff] at him₁ ⊢
      rwa [hkeys]
    · have hopened := (h.savedIn_elsewhere him hsame hne him₁).openedIndexes opener
      rw [h.named c im₁ him₁] at hopened
      rw [get?_openedRegistry (get?_catalog him₁), hopened]

end Saved

/-- **An interrupted drop.**  Opening raises exactly if the document file and some
index files are gone and the manifest is not written, and then it raises whenever it
is tried, since it writes nothing.  Where it returns before the manifest was written,
the collection is registered and cannot be read; the others are as they were in any
case. -/
theorem interrupted_drop (h : Saved w) (hlogs : w.disk.wal = OrdDict.empty)
    (him : w.mem.get? name = some im) (k : ℕ) (opener : Env) :
    let d := (dropCollection name).crashAt env w k
    let w' := init.exec opener ⟨OrdDict.empty, d⟩
    (init.value opener ⟨OrdDict.empty, d⟩ = .ok () ↔
      k ≤ 1 ∨ im.specs = [] ∨ im.specs.length + 3 ≤ k) ∧
    w'.disk = d ∧
    (init.value opener ⟨OrdDict.empty, d⟩ = .ok () →
      (∀ c ≠ name, w'.mem.get? c = w.mem.get? c ∧
        d.jsonl (jsonlPath c) = w.disk.jsonl (jsonlPath c)) ∧
      (name ∈ w'.mem.keys ↔ k < im.specs.length + 3) ∧
      (0 < k → k < im.specs.length + 3 → ∀ reader,
        (∀ i, ∃ msg, (StorageEngine.get name i).value reader w' = .error (.storageError msg)) ∧
        ∃ msg, (StorageEngine.scan name).value reader w' = .error (.storageError msg))) := by
  intro d w'
  have hc : name ∈ w.mem.keys := OrdDict.mem_keys_of_get? him
  have hcollection := h.named name im him
  have hrun := run_dropCollection env him
  have hd : d = applyAll w.disk ((dropWrites w name im).take k) := by
    show applyAll w.disk (((dropCollection name).run env w).writes.take k) = _
    rw [hrun]
    rfl
  rcases Nat.lt_or_ge k (im.specs.length + 3) with hk | hk
  · rcases Nat.eq_zero_or_pos k with rfl | hpos
    · -- nothing has been written
      have hopen := h.run_init opener hlogs
      have hw' : w' = w := Prog.exec_of_run hopen
      refine ⟨iff_of_true (congrArg Outcome.result hopen) (.inl (Nat.zero_le _)),
        congrArg World.disk hw', fun _ => ?_⟩
      rw [hw']
      exact ⟨fun c _ => ⟨rfl, rfl⟩, iff_of_true hc hk, fun hpos => absurd hpos (lt_irrefl 0)⟩
    · have hsame : SameElsewhere name im.specs w.disk d := hd ▸ sameElsewhere_drop hcollection hk
      have hfile : d.jsonl (jsonlPath name) = none := hd ▸ jsonl_drop hpos
      have htext : ∀ e ∈ (catalog w.mem).entries, IndexManager.Readable d e.1 e.2 :=
        fun e he => (h.readable e he).keep (hd ▸ keepsText_drop w name im k)
      have hmissing := missingIdx_drop (w := w) (h.indexes name im him) hcollection hpos
      rw [← hd] at hmissing
      by_cases hbroken : 2 ≤ k ∧ im.specs ≠ []
      · -- the collection is to be read, to rebuild its indexes
        obtain ⟨mem, hinit⟩ := run_init_of_broken opener
          (h.manifest.congr hsame.manifest) htext (get?_catalog him)
          (hmissing.mpr hbroken) hfile fun e he hne => h.present_elsewhere him hsame he hne
        have herror : init.value opener ⟨OrdDict.empty, d⟩ ≠ .ok () := by
          rw [Prog.value, hinit]
          intro hok
          cases hok
        refine ⟨iff_of_false herror ?_, congrArg World.disk (Prog.exec_of_run hinit),
          fun hok => absurd hok herror⟩
        rintro (hle | hnil | hge)
        · omega
        · exact hbroken.2 hnil
        · omega
      · obtain ⟨mem, hinit, hkeys, hothers⟩ :=
          h.run_init_elsewhere him hlogs hsame htext (fun hm => hbroken (hmissing.mp hm)) opener
        have hw' : w' = ⟨mem, d⟩ := Prog.exec_of_run hinit
        refine ⟨iff_of_true (congrArg Outcome.result hinit) ?_, congrArg World.disk hw',
          fun _ => ?_⟩
        · by_cases hle : k ≤ 1
          · exact .inl hle
          · exact .inr (.inl (not_not.mp fun hnil => hbroken ⟨by omega, hnil⟩))
        · rw [hw']
          refine ⟨fun c hne => ⟨hothers c hne, ?_⟩, iff_of_true (hkeys ▸ hc) hk,
            fun _ _ reader => ?_⟩
          · exact hsame.jsonl _ fun heq => hne (jsonlPath_injective heq)
          · obtain ⟨hget, hscan⟩ :=
              value_read_of_missing (w := ⟨mem, d⟩) (hkeys ▸ hc) hfile reader
            exact ⟨fun i => ⟨_, hget i⟩, _, hscan⟩
  · -- all is written
    have hexec := Prog.exec_of_run hrun
    have hall : d = ((dropCollection name).exec env w).disk := by
      rw [hd, List.take_of_length_le (by rwa [length_dropWrites]), hexec]
      rfl
    obtain ⟨-, hgone, -, hothers, hwal⟩ := dropCollection_spec env hc
    have hsaved : Saved ((dropCollection name).exec env w) := h.dropCollection hc
    have hopen := hsaved.run_init opener (hwal.trans hlogs)
    rw [← hall] at hopen
    have hw' : w' = (dropCollection name).exec env w :=
      (Prog.exec_of_run hopen).trans (congrArg (World.mk _) hall)
    refine ⟨iff_of_true (congrArg Outcome.result hopen) (.inr (.inr hk)), hw' ▸ hall.symm,
      fun _ => ?_⟩
    rw [hw', hall]
    exact ⟨hothers, iff_of_false hgone (by omega), fun _ hlt => absurd hk (by omega)⟩

/-- The process stops when the document file and the only index file are gone. -/
theorem interrupted_drop_users :
    let w := performCalls
      [(onlyClient, .createCollection "users" [⟨["email"], true⟩] false)] emptyDb
    let d := (dropCollection "users").crashAt onlyClient w 2
    init.value onlyClient ⟨OrdDict.empty, d⟩ ≠ .ok () := by
  intro w d hok
  have hsaved : Saved w := emptyDb_saved.performCalls ⟨rfl, by decide, trivial⟩
  have hcases := (@interrupted_drop onlyClient w "users"
    (IndexManager.new "users" [⟨["email"], true⟩]) hsaved rfl rfl 2 onlyClient).1.mp hok
  simp [IndexManager.specs_new] at hcases

end JsonpySql
