/-
JsonpySql/FailedCommit.lean

What a commit that raises leaves behind.

The loop of a commit stops at the first entry whose collection is not
registered; what it has applied before stays applied, and the log stays on
disk, to be replayed when the directory is next opened.  So a failed commit is
without effect just if no entry names a collection that is registered or ever
can be: then nothing was applied, and recovery skips every entry.  A name that is
not registered can be created later, unless its document file is there already
(`failureInvisible_iff`).

The last part of the argument compares two runs that differ in their logs
alone: nothing but commits, rollbacks and recoveries reads a log (`withLogs`).
-/
import JsonpySql.Atomicity
import JsonpySql.Collections

namespace JsonpySql

open StorageEngine

variable {reg : Catalog} {T : String → Table} {env : Env} {w : Database}
  {file : String} {ops : List WriteOp}

/-! ### Databases that differ in their logs -/

/-- The directory with other logs. -/
def Disk.withLogs (d : Disk) (logs : OrdDict String (List WalLine)) : Disk :=
  { d with wal := logs }

/-- The database with other logs on disk. -/
def withLogs (w : Database) (logs : OrdDict String (List WalLine)) : Database :=
  ⟨w.mem, w.disk.withLogs logs⟩

/-- Writes that touch a log. -/
def DiskWrite.isLog : DiskWrite → Bool
  | .appendWal .. | .unlinkWal _ => true
  | _ => false

theorem DiskWrite.isLog_of_isIndex {dw : DiskWrite} (h : dw.isIndex = true) :
    dw.isLog = false := by
  cases dw <;> first | rfl | cases h

variable {logs : OrdDict String (List WalLine)}

theorem applyAll_withLogs {ws : List DiskWrite} (h : ∀ dw ∈ ws, dw.isLog = false) (d : Disk) :
    applyAll (d.withLogs logs) ws = (applyAll d ws).withLogs logs := by
  induction ws generalizing d with
  | nil => rfl
  | cons dw ws ih =>
      have hone : (d.withLogs logs).write dw = (d.write dw).withLogs logs := by
        have hdw := h dw List.mem_cons_self
        cases dw <;> first | rfl | cases hdw
      show applyAll ((d.withLogs logs).write dw) ws = _
      rw [hone]
      exact ih (fun dw' hdw' => h dw' (List.mem_cons_of_mem _ hdw')) _

/-- Writes to logs change nothing but the logs. -/
theorem exists_withLogs {ws : List DiskWrite} (h : ∀ dw ∈ ws, dw.isLog = true) (d : Disk) :
    ∃ logs, applyAll d ws = d.withLogs logs := by
  induction ws generalizing d with
  | nil => exact ⟨d.wal, rfl⟩
  | cons dw ws ih =>
      obtain ⟨logs, hlogs⟩ := ih (fun dw' hdw' => h dw' (List.mem_cons_of_mem _ hdw')) (d.write dw)
      refine ⟨logs, hlogs.trans ?_⟩
      have hdw := h dw List.mem_cons_self
      cases dw <;> first | rfl | cases hdw

/-- Programs that neither read nor write a log. -/
structure LogFree (env : Env) (p : EngineM Unit) (w : Database) : Prop where
  run : ∀ logs, p.run env (withLogs w logs) = p.run env w
  writes : ∀ dw ∈ (p.run env w).writes, dw.isLog = false

theorem LogFree.exec {p : EngineM Unit} (h : LogFree env p w)
    (logs : OrdDict String (List WalLine)) :
    p.exec env (withLogs w logs) = withLogs (p.exec env w) logs := by
  rw [Prog.exec, h.run logs, withLogs, Prog.exec]
  exact congrArg (World.mk _) (applyAll_withLogs h.writes w.disk)

/-- A program after another one. -/
theorem LogFree.bind {p q : EngineM Unit} (hp : LogFree env p w)
    (hok : p.value env w = .ok ()) (hq : LogFree env q (p.exec env w)) :
    LogFree env (p >>= fun _ => q) w := by
  have hrun : p.run env w = ⟨.ok (), (p.run env w).mem, (p.run env w).writes⟩ := by
    rw [← show (p.run env w).result = .ok () from hok]
  have hbind : ∀ logs, (p >>= fun _ => q).run env (withLogs w logs) =
      ((q.run env (withLogs (p.exec env w) logs)).after (p.run env w).writes) := by
    intro logs
    rw [Prog.run_bind_ok ((hp.run logs).trans hrun), ← hp.exec logs, Prog.exec, hp.run logs]
  have hplain : (p >>= fun _ => q).run env w =
      (q.run env (p.exec env w)).after (p.run env w).writes := Prog.run_bind_ok hrun
  constructor
  · intro logs
    rw [hbind, hq.run, hplain]
  · rw [hplain]
    intro dw hdw
    rcases List.mem_append.mp hdw with hdw | hdw
    · exact hp.writes dw hdw
    · exact hq.writes dw hdw

/-- A loop of log-free turns. -/
theorem forM_withLogs {β : Type*} {f : β → EngineM Unit} (P : Database → Prop) {l : List β}
    (h0 : P w) (hturn : ∀ b ∈ l, ∀ w, P w →
      (f b).value env w = .ok () ∧ P ((f b).exec env w) ∧ LogFree env (f b) w)
    (logs : OrdDict String (List WalLine)) :
    (l.forM f).exec env (withLogs w logs) = withLogs ((l.forM f).exec env w) logs := by
  induction l generalizing w with
  | nil => rfl
  | cons b l ih =>
      obtain ⟨hok, hP, hfree⟩ := hturn b List.mem_cons_self w h0
      have hok' : (f b).value env (withLogs w logs) = .ok () := by
        rw [Prog.value, hfree.run]
        exact hok
      show (f b >>= fun _ => l.forM f).exec env (withLogs w logs) =
        withLogs ((f b >>= fun _ => l.forM f).exec env w) logs
      rw [Prog.exec_bind_ok hok, Prog.exec_bind_ok hok', hfree.exec]
      exact ih hP fun b' hb' => hturn b' (List.mem_cons_of_mem _ hb')

/-- An operation of the engine is log-free. -/
theorem perform_logFree (op : EngineOp) (henv : env.Alone) (hw : Serving w)
    (hc : op.collection ∈ w.mem.keys) : LogFree env op.perform w := by
  obtain ⟨im, him⟩ := OrdDict.exists_get?_of_mem hc
  have hfree := LockManager.blocked_of_alone henv (jsonlPath op.collection) .exclusive
  have hindex : ∀ (dw : DiskWrite) (im : IndexManager), dw.isLog = false →
      ∀ dw' ∈ dw :: im.saveWrites, dw'.isLog = false := by
    intro dw im hdw dw' hmem
    rcases List.mem_cons.mp hmem with rfl | hmem
    · exact hdw
    · exact DiskWrite.isLog_of_isIndex (im.isIndex_saveWrites dw' hmem)
  cases op with
  | write op =>
      have hrun := run_direct op hw him hfree
      constructor
      · intro logs
        exact (run_direct (w := withLogs w logs) op hw him hfree).trans hrun.symm
      · show ∀ dw ∈ (op.direct.run env w).writes, _
        rw [hrun]
        exact hindex _ _ rfl
  | compact c =>
      have hrun := run_compact hw him hfree
      constructor
      · intro logs
        exact (run_compact (w := withLogs w logs) hw him hfree).trans hrun.symm
      · show ∀ dw ∈ ((StorageEngine.compact (EngineOp.compact c).collection).run env w).writes, _
        rw [hrun]
        exact hindex _ _ rfl

/-- Dropping a collection is log-free. -/
theorem dropCollection_logFree {name : String} {im : IndexManager}
    (him : w.mem.get? name = some im) : LogFree env (dropCollection name) w := by
  have hrun := run_dropCollection env him
  constructor
  · intro logs
    exact (run_dropCollection (w := withLogs w logs) env him).trans hrun.symm
  · rw [hrun]
    intro dw hdw
    rcases List.mem_cons.mp hdw with rfl | hdw
    · rfl
    · rcases List.mem_append.mp hdw with hdw | hdw
      · exact DiskWrite.isLog_of_isIndex (im.isIndex_unlinkWrites dw hdw)
      · rw [List.mem_singleton.mp hdw]
        rfl

/-- Registering a new name is log-free. -/
theorem registerNew_logFree {name : String} {specs : List IndexSpec}
    (hfile : w.disk.jsonl (jsonlPath name) = none) : LogFree env (registerNew name specs) w := by
  have hrun := run_registerNew env specs hfile
  constructor
  · intro logs
    exact (run_registerNew (w := withLogs w logs) env specs hfile).trans hrun.symm
  · rw [hrun]
    intro dw hdw
    rcases List.mem_cons.mp hdw with rfl | hdw
    · rfl
    · rcases List.mem_append.mp hdw with hdw | hdw
      · exact DiskWrite.isLog_of_isIndex (IndexManager.isIndex_saveWrites _ dw hdw)
      · rw [List.mem_singleton.mp hdw]
        rfl

/-- Loading the manifest is log-free. -/
theorem loadManifest_withLogs {d : Disk} {wal : OrdDict String (List WalLine)} (env : Env)
    (h : Holds reg wal T d) (logs : OrdDict String (List WalLine)) :
    loadManifest.exec env ⟨OrdDict.empty, d.withLogs logs⟩ =
      withLogs (loadManifest.exec env ⟨OrdDict.empty, d⟩) logs := by
  have hrun : ∀ d : Disk, d.Registers reg →
      loadManifest.exec env ⟨OrdDict.empty, d⟩ =
        (reg.entries.forM fun e => loadCollection e.1 e.2).exec env ⟨OrdDict.empty, d⟩ := by
    intro d hman
    rw [Prog.exec, run_loadManifest env hman, Prog.exec]
  rw [hrun (d.withLogs logs) h.manifest, hrun d h.manifest]
  have h0 : d.SameData (⟨OrdDict.empty, d⟩ : Database).disk := .refl d
  refine forM_withLogs (fun w => d.SameData w.disk) h0 ?_ logs
  intro e he w hw
  have hfile : (w.disk.jsonl (jsonlPath e.1)).isSome := by
    rw [hw.jsonl]
    exact h.files e.1 (List.mem_map_of_mem he)
  have htext := (h.text e he).keep hw.text
  have hcoll := run_loadCollection env hfile htext
  obtain ⟨hok, -, hsame, -⟩ := loadCollection_turn env hfile htext
  refine ⟨hok, hw.trans hsame, fun logs => ?_, ?_⟩
  · exact (run_loadCollection (w := withLogs w logs) env hfile htext).trans hcoll.symm
  · rw [hcoll]
    intro dw hdw
    split at hdw
    · exact DiskWrite.isLog_of_isIndex (IndexManager.isIndex_saveWrites _ dw hdw)
    · cases hdw

/-! ### Commits that raise -/

/-- The directory is opened by a new process. -/
def reopen (env : Env) (w : Database) : Database := init.exec env ⟨OrdDict.empty, w.disk⟩

/-- Entries on unregistered collections are all skipped by recovery. -/
theorem run_replayEntries_of_notMem {entries : List WALEntry}
    (h : ∀ e ∈ entries, e.collection ∉ w.mem.keys) :
    (entries.forM replayEntry).run env w = ⟨.ok (), w.mem, []⟩ := by
  induction entries with
  | nil => rfl
  | cons e entries ih =>
      show (replayEntry e >>= fun _ => entries.forM replayEntry).run env w = _
      rw [Prog.run_bind_read (run_replayEntry_of_notMem (h e List.mem_cons_self))]
      exact ih fun e' he' => h e' (List.mem_cons_of_mem _ he')

/-- A loop that meets an entry on an unregistered collection raises, somewhere
on its way. -/
theorem applyEntries_of_notMem (env : Env) {wal : OrdDict String (List WalLine)}
    {entries : List WALEntry} (h : Open reg wal w T)
    (hbad : ∃ e ∈ entries, e.collection ∉ reg.keys) :
    (∃ msg, (entries.forM applyEntry).value env w = .error (.storageError msg)) ∧
      ∃ T', Open reg wal ((entries.forM applyEntry).exec env w) T' := by
  induction entries generalizing w T with
  | nil =>
      obtain ⟨e, he, -⟩ := hbad
      cases he
  | cons e entries ih =>
      show (∃ msg, (applyEntry e >>= fun _ => entries.forM applyEntry).value env w = _) ∧
        ∃ T', Open reg wal ((applyEntry e >>= fun _ => entries.forM applyEntry).exec env w) T'
      rcases Decidable.em (e.collection ∈ reg.keys) with hc | hc
      · -- this one is applied
        obtain ⟨hok, hopen, -⟩ := applyEntry_turn env e h hc
        rw [Prog.value_bind_ok hok, Prog.exec_bind_ok hok]
        apply ih hopen
        obtain ⟨e', he', hbad'⟩ := hbad
        rcases List.mem_cons.mp he' with rfl | he'
        · exact absurd hc hbad'
        · exact ⟨e', he', hbad'⟩
      · -- this one raises
        have hrun := run_applyEntry_of_notMem env e (h.keys ▸ hc)
        have herr := congrArg Outcome.result hrun
        rw [Prog.value_bind_error herr, Prog.exec_bind_error herr, Prog.exec, hrun]
        exact ⟨⟨_, rfl⟩, T, h⟩

/-- An operation on an unregistered collection raises, and nothing has happened. -/
theorem run_perform_of_notMem (op : EngineOp) (env : Env) (hc : op.collection ∉ w.mem.keys) :
    op.perform.run env w = ⟨.error (.storageError
      ("Unknown collection: " ++ strRepr op.collection)), w.mem, []⟩ := by
  have hrequire : ∀ p : EngineM Unit, (require op.collection >>= fun _ => p).run env w =
      ⟨.error (.storageError ("Unknown collection: " ++ strRepr op.collection)), w.mem, []⟩ :=
    fun p => Prog.run_bind_error (run_require_of_notMem hc)
  rcases op with (⟨c, i, d⟩ | ⟨c, i, d⟩ | ⟨c, i⟩) | c <;> exact hrequire _

theorem perform_of_notMem (op : EngineOp) (hc : op.collection ∉ w.mem.keys) :
    op.perform.value env w =
      .error (.storageError ("Unknown collection: " ++ strRepr op.collection)) :=
  congrArg Outcome.result (run_perform_of_notMem op env hc)

/-! ### Later calls -/

/-- A call that changes documents or collections. -/
inductive LaterCall
  | engine (op : EngineOp)
  | create (name : String) (specs : List IndexSpec) (dropIfExists : Bool)
  | drop (name : String)

/-- The call. -/
def LaterCall.perform : LaterCall → EngineM Unit
  | .engine op => op.perform
  | .create name specs dropIfExists => createCollection name specs dropIfExists
  | .drop name => dropCollection name

/-- Calls one after another. -/
def performLater (calls : List LaterCall) : EngineM Unit := calls.forM LaterCall.perform

/-- The name is not registered, and cannot be: its document file is there. -/
def Stranded (w : Database) (c : String) : Prop :=
  c ∉ w.mem.keys ∧ (w.disk.jsonl (jsonlPath c)).isSome = true

instance (w : Database) (c : String) : Decidable (Stranded w c) :=
  inferInstanceAs (Decidable (_ ∧ _))

/-- A new collection has index files that are text. -/
theorem readable_registerNew {name : String} {specs : List IndexSpec}
    (hfile : w.disk.jsonl (jsonlPath name) = none) :
    let w' := (registerNew name specs).exec env w
    w.disk.KeepsText w'.disk ∧ IndexManager.Readable w'.disk name specs := by
  intro w'
  have hrun := run_registerNew env specs hfile
  have hdisk : w'.disk = applyAll w.disk ((registerNew name specs).run env w).writes := rfl
  rw [hdisk, hrun]
  set ws := DiskWrite.touchJsonl (jsonlPath name) :: ((IndexManager.new name specs).saveWrites ++ _)
    with hws
  have htext : ∀ dw ∈ ws, dw.leavesText = true := by
    intro dw hdw
    rcases List.mem_cons.mp hdw with rfl | hdw
    · rfl
    · rcases List.mem_append.mp hdw with hdw | hdw
      · simp only [IndexManager.saveWrites, List.mem_append, List.mem_map,
          List.mem_singleton] at hdw
        rcases hdw with ⟨e, -, rfl⟩ | rfl <;> rfl
      · rw [List.mem_singleton.mp hdw]
        rfl
  have hsave : ∀ dw ∈ (IndexManager.new name specs).saveWrites, dw ∈ ws := fun dw hdw =>
    List.mem_cons_of_mem _ (List.mem_append_left _ hdw)
  refine ⟨Disk.keepsText_applyAll htext _, fun spec hspec => ?_, ?_⟩
  · have hwrite : DiskWrite.replaceIdx (IndexManager.idxPath name spec)
        (IndexManager.idxPayload spec ∅) ∈ (IndexManager.new name specs).saveWrites :=
      List.mem_append_left _ (List.mem_map_of_mem (List.mem_map_of_mem hspec))
    exact Disk.isText_idx_applyAll htext (hsave _ hwrite) _
  · exact Disk.isText_ridx_applyAll htext
      (hsave _ (List.mem_append_right _ (List.mem_singleton_self _))) _

/-- Registering a name that is free keeps a directory consistent. -/
theorem Consistent.registerNew {name : String} {specs : List IndexSpec} (h : Consistent w)
    (hc : name ∉ w.mem.keys) (hfile : w.disk.jsonl (jsonlPath name) = none) :
    Consistent ((registerNew name specs).exec env w) := by
  have hcreated : Created w ((StorageEngine.registerNew name specs).exec env w) name specs :=
    created_registerNew hfile
  obtain ⟨hkeep, hnew⟩ := @readable_registerNew env w name specs hfile
  refine ⟨hcreated.serving h.serving, .inl hcreated.manifest, ?_⟩
  rintro ⟨c, specs'⟩ he
  obtain ⟨im, him, rfl⟩ := exists_of_catalog (OrdDict.mem_entries_iff.mp he)
  rcases eq_or_ne c name with rfl | hne
  · rw [hcreated.mem] at him
    rw [← Option.some.inj him, IndexManager.specs_new]
    exact hnew
  · rw [(hcreated.others c hne).1] at him
    exact (h.text (c, im.specs) (OrdDict.mem_entries_iff.mpr (get?_catalog him))).keep hkeep

/-- Dropping a collection keeps a directory consistent. -/
theorem Consistent.dropCollection {name : String} (h : Consistent w) (hc : name ∈ w.mem.keys) :
    Consistent ((dropCollection name).exec env w) := by
  obtain ⟨im, him⟩ := OrdDict.exists_get?_of_mem hc
  obtain ⟨-, hgone, -, hothers, -⟩ := dropCollection_spec env hc
  have hrun := run_dropCollection env him
  set w' := (StorageEngine.dropCollection name).exec env w with hw'
  have hdisk : w'.disk = applyAll w.disk ((StorageEngine.dropCollection name).run env w).writes :=
    rfl
  have hmem : w'.mem = (w.mem.set name im).erase name := congrArg Outcome.mem hrun
  have hkeep : w.disk.KeepsText w'.disk := by
    rw [hdisk, hrun]
    refine Disk.keepsText_applyAll (fun dw hdw => ?_) _
    rcases List.mem_cons.mp hdw with rfl | hdw
    · rfl
    · rcases List.mem_append.mp hdw with hdw | hdw
      · simp only [IndexManager.unlinkWrites, List.mem_append, List.mem_map,
          List.mem_singleton] at hdw
        rcases hdw with ⟨e, -, rfl⟩ | rfl <;> rfl
      · rw [List.mem_singleton.mp hdw]
        rfl
  have hother : ∀ c im', w'.mem.get? c = some im' → c ≠ name ∧ w.mem.get? c = some im' := by
    intro c im' him'
    have hne : c ≠ name := by
      rintro rfl
      exact hgone (OrdDict.mem_keys_of_get? him')
    exact ⟨hne, (hothers c hne).1 ▸ him'⟩
  refine ⟨fun c hcw => ?_, .inl ?_, ?_⟩
  · obtain ⟨im', him'⟩ := OrdDict.exists_get?_of_mem hcw
    obtain ⟨hne, hold⟩ := hother c im' him'
    rw [(hothers c hne).2]
    exact h.serving c (OrdDict.mem_keys_of_get? hold)
  · rw [hdisk, hrun, hmem, applyAll_cons, applyAll_append]
    rfl
  · rintro ⟨c, specs⟩ he
    obtain ⟨im', him', rfl⟩ := exists_of_catalog (OrdDict.mem_entries_iff.mp he)
    obtain ⟨-, hold⟩ := hother c im' him'
    exact (h.text (c, im'.specs) (OrdDict.mem_entries_iff.mpr (get?_catalog hold))).keep hkeep

/-- What a later call that returns keeps: it reads no log, and the names that cannot be
registered stay so. -/
structure Keeps (env : Env) (p : EngineM Unit) (w : Database) : Prop where
  logFree : LogFree env p w
  consistent : Consistent (p.exec env w)
  wal : (p.exec env w).disk.wal = w.disk.wal
  stranded : ∀ c, Stranded w c → Stranded (p.exec env w) c

/-- A call after another one. -/
theorem Keeps.bind {p q : EngineM Unit} (hp : Keeps env p w) (hok : p.value env w = .ok ())
    (hq : Keeps env q (p.exec env w)) : Keeps env (p >>= fun _ => q) w := by
  have hexec : (p >>= fun _ => q).exec env w = q.exec env (p.exec env w) := Prog.exec_bind_ok hok
  exact ⟨hp.logFree.bind hok hq.logFree, hexec ▸ hq.consistent, hexec ▸ hq.wal.trans hp.wal,
    fun c hc => hexec ▸ hq.stranded c (hp.stranded c hc)⟩

/-- A call that is another one, whatever the logs are. -/
theorem Keeps.congr {p q : EngineM Unit}
    (hrun : ∀ logs, p.run env (withLogs w logs) = q.run env (withLogs w logs))
    (hq : Keeps env q w) : Keeps env p w := by
  have hplain : p.run env w = q.run env w := hrun w.disk.wal
  have hexec : p.exec env w = q.exec env w := Prog.exec_congr hplain
  refine ⟨⟨fun logs => ?_, ?_⟩, hexec ▸ hq.consistent, hexec ▸ hq.wal, hexec ▸ hq.stranded⟩
  · rw [hrun, hplain, hq.logFree.run]
  · rw [hplain]
    exact hq.logFree.writes

/-- An operation that returned. -/
theorem keeps_perform (op : EngineOp) (henv : env.Alone) (h : Consistent w)
    (hc : op.collection ∈ w.mem.keys) : Keeps env op.perform w := by
  obtain ⟨im, him⟩ := OrdDict.exists_get?_of_mem hc
  obtain ⟨-, hchanged⟩ := perform_spec_of_alone op henv h.serving him
  refine ⟨perform_logFree op henv h.serving hc,
    (hchanged.isOpen h.isOpen him op.specs_newIndexes).consistent, hchanged.wal,
    fun c hcs => ⟨?_, hchanged.files _ hcs.2⟩⟩
  rw [hchanged.keys hc]
  exact hcs.1

theorem keeps_drop {name : String} (h : Consistent w) (hc : name ∈ w.mem.keys) :
    Keeps env (dropCollection name) w := by
  obtain ⟨im, him⟩ := OrdDict.exists_get?_of_mem hc
  obtain ⟨-, -, -, hothers, hwal⟩ := dropCollection_spec env hc
  refine ⟨dropCollection_logFree him, h.dropCollection hc, hwal, fun c hcs => ?_⟩
  have hne : c ≠ name := fun heq => hcs.1 (heq ▸ hc)
  obtain ⟨hget, hjsonl⟩ := hothers c hne
  refine ⟨?_, hjsonl ▸ hcs.2⟩
  rw [← OrdDict.get?_eq_none_iff, hget, OrdDict.get?_eq_none_iff]
  exact hcs.1

theorem keeps_register {name : String} {specs : List IndexSpec} (h : Consistent w)
    (hc : name ∉ w.mem.keys) (hok : (registerNew name specs).value env w = .ok ()) :
    Keeps env (registerNew name specs) w := by
  have hfile : w.disk.jsonl (jsonlPath name) = none := file_of_registerNew hok
  have hcreated : Created w ((registerNew name specs).exec env w) name specs :=
    created_registerNew hfile
  refine ⟨registerNew_logFree hfile, h.registerNew hc hfile, hcreated.wal, fun c hcs => ?_⟩
  have hne : c ≠ name := by
    rintro rfl
    have hthere := hcs.2
    rw [hfile] at hthere
    cases hthere
  obtain ⟨hget, hjsonl⟩ := hcreated.others c hne
  refine ⟨?_, hjsonl ▸ hcs.2⟩
  rw [← OrdDict.get?_eq_none_iff, hget, OrdDict.get?_eq_none_iff]
  exact hcs.1

/-- A creation that returned. -/
theorem keeps_create {name : String} {specs : List IndexSpec} {drop : Bool} (h : Consistent w)
    (hok : (createCollection name specs drop).value env w = .ok ()) :
    Keeps env (createCollection name specs drop) w := by
  rw [Prog.value, run_createCollection] at hok
  by_cases hc : name ∈ w.mem.keys
  · rw [if_pos hc] at hok
    cases drop with
    | false => cases hok
    | true =>
        obtain ⟨hdropped, hgone, -⟩ := dropCollection_spec env hc
        have hdrop : Keeps env (dropCollection name) w := keeps_drop h hc
        have hnew : (registerNew name specs).value env ((dropCollection name).exec env w) =
            .ok () := (Prog.value_bind_ok hdropped).symm.trans hok
        refine Keeps.congr (fun logs => ?_)
          (hdrop.bind hdropped (keeps_register hdrop.consistent hgone hnew))
        have hc' : name ∈ (withLogs w logs).mem.keys := hc
        rw [run_createCollection, if_pos hc']
        rfl
  · rw [if_neg hc] at hok
    refine Keeps.congr (fun logs => ?_) (keeps_register h hc hok)
    have hc' : name ∉ (withLogs w logs).mem.keys := hc
    rw [run_createCollection, if_neg hc']

/-- **A later call that returns**, whatever it is. -/
theorem LaterCall.keeps {call : LaterCall} (henv : env.Alone) (h : Consistent w)
    (hok : call.perform.value env w = .ok ()) : Keeps env call.perform w := by
  cases call with
  | engine op =>
      apply keeps_perform op henv h
      by_contra hc
      cases (@perform_of_notMem env _ op hc).symm.trans hok
  | drop name =>
      apply keeps_drop h
      by_contra hc
      have hraise : (dropCollection name).run env w = ⟨.error _, w.mem, []⟩ :=
        Prog.run_bind_error (run_require_of_notMem hc)
      rw [LaterCall.perform, Prog.value, hraise] at hok
      cases hok
  | create name specs drop => exact keeps_create h hok

/-- **Later calls that return** do the same with and without other logs, and keep the
names that cannot be registered. -/
theorem performLater_keeps {calls : List LaterCall} (henv : env.Alone) (h : Consistent w)
    (hok : (performLater calls).value env (withLogs w logs) = .ok ()) :
    (performLater calls).exec env (withLogs w logs) =
        withLogs ((performLater calls).exec env w) logs ∧
      Consistent ((performLater calls).exec env w) ∧
      ((performLater calls).exec env w).disk.wal = w.disk.wal ∧
      ∀ c, Stranded w c → Stranded ((performLater calls).exec env w) c := by
  induction calls generalizing w with
  | nil => exact ⟨rfl, h, rfl, fun _ hc => hc⟩
  | cons call calls ih =>
      have hbind : (call.perform >>= fun _ => performLater calls).value env (withLogs w logs) =
        .ok () := hok
      have hlogged : Consistent (withLogs w logs) := ⟨h.serving, h.manifest, h.text⟩
      rcases hcall : call.perform.value env (withLogs w logs) with e | ⟨⟩
      · cases (Prog.value_bind_error hcall).symm.trans hbind
      · -- the other logs are taken away again
        have hfree := (call.keeps henv hlogged hcall).logFree.run w.disk.wal
        have hback : withLogs (withLogs w logs) w.disk.wal = w := rfl
        rw [hback] at hfree
        have hcall' : call.perform.value env w = .ok () := by
          rw [Prog.value, hfree]
          exact hcall
        have hkeeps := call.keeps henv h hcall'
        rw [Prog.value_bind_ok hcall, hkeeps.logFree.exec] at hbind
        obtain ⟨hexec, hconsistent, hwal, hstranded⟩ := ih hkeeps.consistent hbind
        show (call.perform >>= fun _ => performLater calls).exec env (withLogs w logs) =
            withLogs ((call.perform >>= fun _ => performLater calls).exec env w) logs ∧
          Consistent ((call.perform >>= fun _ => performLater calls).exec env w) ∧
          ((call.perform >>= fun _ => performLater calls).exec env w).disk.wal = w.disk.wal ∧
          ∀ c, Stranded w c → Stranded ((call.perform >>= fun _ => performLater calls).exec env w) c
        rw [Prog.exec_bind_ok hcall, Prog.exec_bind_ok hcall', hkeeps.logFree.exec]
        exact ⟨hexec, hconsistent, hwal.trans hkeeps.wal,
          fun c hc => hstranded c (hkeeps.stranded c hc)⟩

/-! ### A stale log -/

/-- What a replay leaves for a document of the log does not depend on what was
there. -/
theorem liveRow_replay {entries : List WALEntry} {c i : String} (hc : c ∈ reg.keys)
    (h : ∃ e ∈ entries, e.target = (c, i)) :
    ∃ v, ∀ T : String → Table, (entries.foldl (replayStep reg) T c).liveRow i = v := by
  induction entries using List.reverseRecOn with
  | nil =>
      obtain ⟨e, he, -⟩ := h
      cases he
  | append_singleton entries e ih =>
      rcases Decidable.em (e.target = (c, i)) with he | he
      -- the last entry is the document's
      · refine ⟨e.line.slot, fun T => ?_⟩
        obtain ⟨rfl, rfl⟩ := Prod.mk.inj he
        rw [List.foldl_concat, replayStep, if_pos hc, entryTableStep, WALEntry.target, store_put,
          Function.update_self, Table.liveRow_set, if_pos rfl]
      -- the last entry is another document's and leaves the line alone
      · obtain ⟨e', he', htarget⟩ := h
        have hmem : e' ∈ entries := by
          rcases List.mem_append.mp he' with hmem | hmem
          · exact hmem
          · exact absurd (List.mem_singleton.mp hmem ▸ htarget) he
        obtain ⟨v, hv⟩ := ih ⟨e', hmem, htarget⟩
        refine ⟨v, fun T => ?_⟩
        rw [List.foldl_concat, ← hv T, replayStep]
        split
        · rw [entryTableStep, WALEntry.target, store_put]
          rcases eq_or_ne c e.collection with rfl | hne
          · have hi : i ≠ e.docId := fun hi => he (by rw [hi]; rfl)
            rw [Function.update_self, Table.liveRow_set, if_neg hi]
          · rw [Function.update_of_ne hne]
        · rfl

/-- Whatever a document's line is, some write leaves another. -/
theorem exists_write_slot_ne (c i : String) (v : Option Record) :
    ∃ op : WriteOp, op.target = (c, i) ∧ op.line.slot ≠ v := by
  rcases v with _ | r
  · have hslot : (WriteOp.insert c i OrdDict.empty).line.slot =
        some (Record.ofDoc i OrdDict.empty) := rfl
    exact ⟨.insert c i OrdDict.empty, rfl, hslot ▸ Option.some_ne_none _⟩
  · exact ⟨.delete c i, rfl, (Option.some_ne_none r).symm⟩

/-- **A stale log takes effect.**  While the log of an operation on a registered
collection is there, some write to its document is lost when the directory is
opened again. -/
theorem exists_lost_write (henv : env.Alone) (h : Open reg (oneLog file ops) w T)
    (hop : ∃ op ∈ ops, op.collection ∈ reg.keys) :
    ∃ op : WriteOp, op.direct.value env w = .ok () ∧
      let written := op.direct.exec env w
      ¬ SameAnswers env written (reopen env written) := by
  obtain ⟨op, hop, hc⟩ := hop
  obtain ⟨v, hv⟩ := liveRow_replay hc (exists_mem_dedup_walEntries hop)
  obtain ⟨x, htarget, hx⟩ := exists_write_slot_ne op.collection op.docId v
  have hcoll : x.collection = op.collection := congrArg Prod.fst htarget
  have hxc : x.collection ∈ w.mem.keys := by
    rw [hcoll, h.keys]
    exact hc
  obtain ⟨im, him⟩ := OrdDict.exists_get?_of_mem hxc
  obtain ⟨hok, hchanged⟩ := perform_spec_of_alone (.write x) henv h.serving him
  have hopen := hchanged.isOpen h him x.specs_newIndexes
  refine ⟨x, hok, ?_⟩
  intro written hsame
  obtain ⟨-, hreopened, -⟩ := init_spec env file ops hopen.holds
  have hline := hsame.liveRow henv hopen.serving hreopened.serving
    (hreopened.keys.trans hopen.keys.symm) (hopen.keys ▸ hc) op.docId
  have htables : tables (reopen env written).disk = _ := hreopened.holds.tables
  have hwritten : tables written.disk = _ := hchanged.tables
  rw [htables, hv, hwritten] at hline
  -- the write has left another line than the replay does
  refine hx ?_
  rw [← hline, ← hcoll]
  show x.line.slot = (Function.update (tables w.disk) x.collection
    ((tables w.disk x.collection).set x.docId x.line.slot) x.collection).liveRow op.docId
  have hid : op.docId = x.docId := (congrArg Prod.snd htarget).symm
  rw [Function.update_self, Table.liveRow_set, if_pos hid]

/-! ### The failed commit -/

/-- A failed attempt to leave the transaction changes no answer, and neither
does opening the directory again after any further calls that succeed: it
is then as if the transaction had never been. -/
def FailureInvisible (env : Env) (w : Database) (file : String) (ops : List WriteOp)
    (leave : EngineM Unit) : Prop :=
  let buffered := (Transaction.bufferAll file ops).exec env w
  let failed := leave.exec env buffered
  ∀ e, leave.value env buffered = .error e →
    SameAnswers env buffered failed ∧ SameLookups env buffered failed ∧
    ∀ further, (performLater further).value env failed = .ok () →
      let written := (performLater further).exec env failed
      let without := (performLater further).exec env w
      init.value env ⟨OrdDict.empty, written.disk⟩ = .ok () ∧
        SameAnswers env written (reopen env written) ∧
        SameAnswers env (reopen env without) (reopen env written) ∧
        SameLookups env (reopen env without) (reopen env written)

/-- A commit with an entry on an unregistered collection raises, and leaves its
log. -/
theorem commit_raises (file : String) (env : Env) (hw : Consistent w)
    (hlogs : w.disk.wal = OrdDict.empty)
    (hbad : ∃ op ∈ ops, op.collection ∉ w.mem.keys) :
    let buffered := (Transaction.bufferAll file ops).exec env w
    (∃ e, (Transaction.commit file).value env buffered = .error e) ∧
      ∃ T, Open (catalog w.mem) (oneLog file ops) ((Transaction.commit file).exec env buffered)
        T := by
  intro buffered
  obtain ⟨op, hop, hc⟩ := hbad
  have hne : ops ≠ [] := List.ne_nil_of_mem hop
  have hopen := open_bufferAll env hw hlogs file ops
  have hlog : buffered.disk.wal.get? file = some (logOf ops) := by
    rw [hopen.holds.wal, get?_oneLog hne]
  have hentry : ∃ e ∈ WAL.dedup (walEntries ops), e.collection ∉ (catalog w.mem).keys := by
    obtain ⟨e, he, heq⟩ := exists_mem_dedup_walEntries hop
    have hcoll : e.collection = op.collection := congrArg Prod.fst heq
    refine ⟨e, he, ?_⟩
    rw [hcoll, keys_catalog]
    exact hc
  obtain ⟨⟨msg, herr⟩, hfailed⟩ := applyEntries_of_notMem env hopen hentry
  have hrun := run_commit env hlog
  rw [Prog.value, Prog.exec, hrun]
  refine ⟨⟨_, Prog.value_bind_error herr⟩, ?_⟩
  have hexec := Prog.exec_bind_error (f := fun _ => WAL.delete file) herr
  rw [Prog.exec] at hexec
  rw [hexec]
  exact hfailed

/-- A commit of entries on unregistered collections only: nothing happens. -/
theorem exec_commit_of_notMem (env : Env) (hw : Consistent w)
    (hlogs : w.disk.wal = OrdDict.empty) (hnone : ∀ op ∈ ops, op.collection ∉ w.mem.keys) :
    let buffered := (Transaction.bufferAll file ops).exec env w
    (Transaction.commit file).exec env buffered = buffered := by
  intro buffered
  have hopen := open_bufferAll env hw hlogs file ops
  rcases eq_or_ne ops [] with rfl | hne
  · have hmissing : buffered.disk.wal.get? file = none := by
      rw [hopen.holds.wal]
      rfl
    exact Prog.exec_of_run (run_commit_of_missing env hmissing)
  · have hlog : buffered.disk.wal.get? file = some (logOf ops) := by
      rw [hopen.holds.wal, get?_oneLog hne]
    rw [Prog.exec, run_commit env hlog]
    rcases hentries : WAL.dedup (walEntries ops) with _ | ⟨e, entries⟩
    · -- the log is not empty
      obtain ⟨op, rest, rfl⟩ := List.exists_cons_of_ne_nil hne
      obtain ⟨e, he, -⟩ := exists_mem_dedup_walEntries (List.mem_cons_self (a := op) (l := rest))
      rw [hentries] at he
      cases he
    · -- the first entry raises
      obtain ⟨op, hop, hentry⟩ := mem_dedup_walEntries (hentries ▸ List.mem_cons_self)
      have hcoll : e.collection ∉ buffered.mem.keys := by
        rw [hopen.keys, keys_catalog, ← hentry, WriteOp.collection_entry]
        exact hnone op hop
      have hloop : ((e :: entries).forM applyEntry).run env buffered =
          ⟨.error _, buffered.mem, []⟩ :=
        Prog.run_bind_error (run_applyEntry_of_notMem env e hcoll)
      rw [Prog.run_bind_error hloop]
      rfl

/-- Entries on unregistered collections change no table. -/
theorem foldl_replayStep_of_notMem {entries : List WALEntry}
    (h : ∀ e ∈ entries, e.collection ∉ reg.keys) (T : String → Table) :
    entries.foldl (replayStep reg) T = T := by
  induction entries with
  | nil => rfl
  | cons e entries ih =>
      rw [List.foldl_cons, replayStep, if_neg (h e List.mem_cons_self)]
      exact ih fun e' he' => h e' (List.mem_cons_of_mem _ he')

/-- Buffering adds a log. -/
theorem bufferAll_eq_withLogs (env : Env) (hw : Consistent w)
    (hlogs : w.disk.wal = OrdDict.empty) :
    (Transaction.bufferAll file ops).exec env w = withLogs w (oneLog file ops) := by
  have hwal := (open_bufferAll env hw hlogs file ops).holds.wal
  rw [Prog.exec, run_bufferAll] at hwal ⊢
  have hlog : ∀ dw ∈ ops.map fun op => DiskWrite.appendWal file (.entry op.entry.viaJson),
      dw.isLog = true := by
    intro dw hdw
    obtain ⟨op, -, rfl⟩ := List.mem_map.mp hdw
    rfl
  obtain ⟨logs, hd⟩ := exists_withLogs hlog w.disk
  rw [hd] at hwal ⊢
  exact congrArg (withLogs w) hwal

/-- Opening a directory with a log of entries on unregistered collections only
leaves the indexes that opening it without the log leaves. -/
theorem mem_reopen_withLogs (env : Env) (h : Open reg OrdDict.empty w T)
    (hnone : ∀ op ∈ ops, op.collection ∉ reg.keys) :
    (reopen env (withLogs w (oneLog file ops))).mem = (reopen env w).mem := by
  obtain ⟨hok, hopen, -⟩ := loadManifest_spec env h.holds
  have hload := loadManifest_withLogs env h.holds (oneLog file ops)
  have hok' : loadManifest.value env ⟨OrdDict.empty, w.disk.withLogs (oneLog file ops)⟩ =
      .ok () := by
    have hholds : Holds reg (oneLog file ops) T (w.disk.withLogs (oneLog file ops)) :=
      ⟨h.holds.manifest, h.holds.files, rfl, h.holds.tables, h.holds.text⟩
    exact (loadManifest_spec env hholds).1
  show (init.exec env ⟨OrdDict.empty, w.disk.withLogs (oneLog file ops)⟩).mem =
    (init.exec env ⟨OrdDict.empty, w.disk⟩).mem
  rw [init, Prog.exec_bind_ok hok, Prog.exec_bind_ok hok', hload]
  generalize loadManifest.exec env ⟨OrdDict.empty, w.disk⟩ = loaded at hopen
  have hnil : (recoverWal.exec env loaded).mem = loaded.mem :=
    congrArg World.mem (Prog.exec_of_run (run_recoverWal_nil env hopen.holds.wal))
  rw [hnil]
  rcases eq_or_ne ops [] with rfl | hne
  · have hlogs : (withLogs loaded (oneLog file [])).disk.wal = OrdDict.empty := rfl
    rw [Prog.exec_of_run (run_recoverWal_nil env hlogs)]
    rfl
  · have hentries : ∀ e ∈ WAL.dedup (walEntries ops),
        e.collection ∉ (withLogs loaded (oneLog file ops)).mem.keys := by
      intro e he
      obtain ⟨op, hop, rfl⟩ := mem_dedup_walEntries he
      rw [WriteOp.collection_entry]
      exact hopen.keys ▸ hnone op hop
    have hlog : (withLogs loaded (oneLog file ops)).disk.wal.get? file =
        some ((walEntries ops).map .entry) :=
      (get?_oneLog hne).trans (congrArg some (logOf_eq ops))
    rw [Prog.exec, run_recoverWal_one env hne rfl, run_recoverFile env hlog,
      Prog.run_bind_read (run_replayEntries_of_notMem hentries)]
    rfl

/-- **A log that cannot be applied** does not show when the directory is opened
again: every answer is as before, and as without the log. -/
theorem reopen_withLogs (file : String) (henv : env.Alone) (h : Open reg OrdDict.empty w T)
    (hnone : ∀ op ∈ ops, op.collection ∉ reg.keys) :
    let logged := withLogs w (oneLog file ops)
    init.value env ⟨OrdDict.empty, logged.disk⟩ = .ok () ∧
      SameAnswers env logged (reopen env logged) ∧
      SameAnswers env (reopen env w) (reopen env logged) ∧
      SameLookups env (reopen env w) (reopen env logged) := by
  intro logged
  have hentries : ∀ e ∈ WAL.dedup (walEntries ops), e.collection ∉ reg.keys := by
    intro e he
    obtain ⟨op, hop, rfl⟩ := mem_dedup_walEntries he
    rw [WriteOp.collection_entry]
    exact hnone op hop
  have hlogged : Open reg (oneLog file ops) logged T :=
    ⟨h.catalog, h.holds.manifest, h.holds.files, rfl, h.holds.tables, h.holds.text⟩
  obtain ⟨hok, hreopened, -⟩ := init_spec env file ops hlogged.holds
  rw [foldl_replayStep_of_notMem hentries] at hreopened
  obtain ⟨-, hplain, -⟩ := init_spec env file [] h.holds
  have htables : tables (reopen env logged).disk = T := hreopened.holds.tables
  have htables' : tables (reopen env w).disk = T := hplain.holds.tables
  refine ⟨hok, ?_, ?_, ?_⟩
  · exact sameAnswers_of_eq henv hlogged.serving hreopened.serving
      (hreopened.keys.trans hlogged.keys.symm) (htables.trans hlogged.holds.tables.symm)
  · exact sameAnswers_of_eq henv hplain.serving hreopened.serving
      (hreopened.keys.trans hplain.keys.symm) (htables.trans htables'.symm)
  · exact sameLookups_of_eq henv hplain.serving hreopened.serving
      (mem_reopen_withLogs env h hnone) (htables.trans htables'.symm)

/-- A commit whose entries name collections that cannot be registered has no effect,
and nor has its log. -/
theorem failureInvisible_of_stranded (file : String) (henv : env.Alone) (hw : Consistent w)
    (hlogs : w.disk.wal = OrdDict.empty) (hnone : ∀ op ∈ ops, Stranded w op.collection) :
    FailureInvisible env w file ops (Transaction.commit file) := by
  intro e _
  rw [exec_commit_of_notMem env hw hlogs fun op hop => (hnone op hop).1,
    bufferAll_eq_withLogs env hw hlogs]
  refine ⟨fun c => ⟨fun _ => rfl, rfl⟩, fun c field v => rfl, ?_⟩
  intro further hok written without
  -- the further calls do the same with and without the log
  obtain ⟨hexec, hconsistent, hwal, hstranded⟩ := performLater_keeps henv hw hok
  have hwritten : written = withLogs without (oneLog file ops) := hexec
  have hopen : Open (catalog without.mem) OrdDict.empty without (tables without.disk) :=
    hwal.trans hlogs ▸ hconsistent.isOpen
  rw [hwritten]
  refine reopen_withLogs file henv hopen fun op hop => ?_
  rw [keys_catalog]
  exact (hstranded op.collection (hnone op hop)).1

/-- A commit with an entry on a collection that is registered, or can be, and one on an
unregistered collection raises, and its log is still there: it will undo a later write. -/
theorem not_failureInvisible (file : String) (henv : env.Alone) (hw : Consistent w)
    (hlogs : w.disk.wal = OrdDict.empty) (hsome : ∃ op ∈ ops, ¬Stranded w op.collection)
    (hbad : ∃ op ∈ ops, op.collection ∉ w.mem.keys) :
    ¬ FailureInvisible env w file ops (Transaction.commit file) := by
  intro h
  obtain ⟨⟨e, herr⟩, T, hopen⟩ := commit_raises file env hw hlogs hbad
  obtain ⟨-, -, hlater⟩ := h e herr
  set failed := (Transaction.commit file).exec env ((Transaction.bufferAll file ops).exec env w)
    with hfailed
  by_cases hreg : ∃ op ∈ ops, op.collection ∈ w.mem.keys
  · obtain ⟨op, hop, hreg⟩ := hreg
    obtain ⟨x, hok, hlost⟩ := exists_lost_write henv hopen
      ⟨op, hop, (keys_catalog w.mem).symm ▸ hreg⟩
    have hone : (performLater [.engine (.write x)]).run env failed = x.direct.run env failed :=
      Prog.run_forM_singleton ..
    obtain ⟨-, hsame, -⟩ := hlater [.engine (.write x)] ((congrArg Outcome.result hone).trans hok)
    rw [Prog.exec_congr hone] at hsame
    exact hlost hsame
  · -- nothing was applied, and the collection is created first
    push Not at hreg
    obtain ⟨op, hop, hc⟩ := hsome
    have hnothing : failed = withLogs w (oneLog file ops) :=
      (exec_commit_of_notMem env hw hlogs hreg).trans (bufferAll_eq_withLogs env hw hlogs)
    have hnot : op.collection ∉ failed.mem.keys := by
      rw [hnothing]
      exact hreg op hop
    have hfile : failed.disk.jsonl (jsonlPath op.collection) = none := by
      rw [hnothing, ← Option.not_isSome_iff_eq_none]
      exact fun hthere => hc ⟨hreg op hop, hthere⟩
    have hcreate : (createCollection op.collection [] false).run env failed =
        (registerNew op.collection []).run env failed :=
      run_createCollection_of_notMem env [] false hnot
    have hcreated : (createCollection op.collection [] false).value env failed = .ok () := by
      rw [Prog.value, hcreate, run_registerNew env [] hfile]
    have hconsistent : Consistent ((registerNew op.collection []).exec env failed) :=
      hopen.consistent.registerNew hnot hfile
    have hnew : Created failed ((registerNew op.collection []).exec env failed) op.collection [] :=
      created_registerNew hfile
    have hopen' := hconsistent.isOpen
    rw [hnew.wal, hopen.holds.wal] at hopen'
    obtain ⟨x, hok, hlost⟩ := exists_lost_write henv hopen' ⟨op, hop, by
      rw [keys_catalog]
      exact OrdDict.mem_keys_of_get? hnew.mem⟩
    have hexec : (createCollection op.collection [] false).exec env failed =
        (registerNew op.collection []).exec env failed := Prog.exec_congr hcreate
    rw [← hexec] at hok hlost
    have htwo : performLater [.create op.collection [] false, .engine (.write x)] =
        (createCollection op.collection [] false >>= fun _ =>
          performLater [.engine (.write x)]) := rfl
    have hone : ∀ w, (performLater [.engine (.write x)]).run env w = x.direct.run env w :=
      fun w => Prog.run_forM_singleton ..
    have hall : (performLater [.create op.collection [] false, .engine (.write x)]).value env
        failed = .ok () := by
      rw [htwo, Prog.value_bind_ok hcreated]
      exact (congrArg Outcome.result (hone _)).trans hok
    obtain ⟨-, hsame, -⟩ := hlater _ hall
    rw [htwo, Prog.exec_bind_ok hcreated, Prog.exec_congr (hone _)] at hsame
    exact hlost hsame

/-- **When a failed commit is without effect.**  Whatever the commit is reached
through, its failure changes nothing, now or later, just if it does not fail,
all collections being registered, or fails before it has done anything, none
being registered nor free to be created (also when nothing was buffered). -/
theorem failureInvisible_iff (file : String) (ops : List WriteOp) (leave : EngineM Unit)
    (hleave : leave = Transaction.commit file ∨ leave = Transaction.exit file true)
    (henv : env.Alone) (hw : Consistent w) (hlogs : w.disk.wal = OrdDict.empty) :
    FailureInvisible env w file ops leave ↔
      (∀ op ∈ ops, op.collection ∈ w.mem.keys) ∨ ∀ op ∈ ops, Stranded w op.collection := by
  have hcommit : leave = Transaction.commit file := hleave.elim id id
  rw [hcommit]
  constructor
  · intro h
    by_contra hmixed
    push Not at hmixed
    obtain ⟨hbad, hsome⟩ := hmixed
    exact not_failureInvisible file henv hw hlogs hsome hbad h
  · rintro (hall | hnone)
    · rcases eq_or_ne ops [] with rfl | hne
      · exact failureInvisible_of_stranded file henv hw hlogs
          fun op hop => absurd hop List.not_mem_nil
      · -- such a commit does not raise
        intro e herr
        obtain ⟨hok, -⟩ :=
          commit_turn env hne (open_bufferAll env hw hlogs file ops) fun op hop => by
            rw [keys_catalog]
            exact hall op hop
        cases hok.symm.trans herr
    · exact failureInvisible_of_stranded file henv hw hlogs hnone

/-- An insert into a registered and one into an unregistered collection. -/
def mixedInserts : List WriteOp :=
  [.insert "users" "1" OrdDict.empty, .insert "nobody" "2" OrdDict.empty]

/-- The commit raises after the first insert, which stays. -/
theorem mixedInserts_failure :
    ¬ FailureInvisible onlyClient usersDb "a.wal" mixedInserts (Transaction.exit "a.wal" true) :=
  not_failureInvisible "a.wal" onlyClient_alone usersDb_consistent rfl
    ⟨_, List.mem_cons_self, by decide⟩ (by decide)

/-- The second insert alone, where the creation of its collection was interrupted: the
commit raises, and nothing has happened. -/
theorem failureInvisible_nobody :
    FailureInvisible onlyClient ⟨usersDb.mem, usersDb.disk.write (.touchJsonl "nobody.jsonl")⟩
      "a.wal" [.insert "nobody" "2" OrdDict.empty] (Transaction.exit "a.wal" true) :=
  (failureInvisible_iff "a.wal" _ _ (Or.inr rfl) onlyClient_alone
    ⟨fun c hc => by
      obtain rfl : c = "users" := List.mem_singleton.mp hc
      rfl, .inl rfl, by decide⟩ rfl).mpr (Or.inr (by decide))

end JsonpySql
