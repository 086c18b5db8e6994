/-
JsonpySql/Tombstones.lean

User data and tombstones.

Both are lines of one file, and a line is taken for a tombstone if its
`_deleted` is truthy, whoever wrote it.  A document that a client stores with
such a key is not there for `get` and `scan`, and `count_lines` counts it with
the deletes, until a compaction drops it.

How many tombstones a file has is followed through runs of all calls of the
engine (`Tally`).  The delete calls of a transaction count when it commits, and
its commit leaves those out that a later operation of the transaction on the same
document has superseded.  So the count is the number of delete calls just where
as many documents look deleted as delete calls were superseded (`keptApart_iff`).
-/
import JsonpySql.LineHistory
import JsonpySql.Refinement
import JsonpySql.Reopening

namespace JsonpySql

open StorageEngine

variable {env : Env} {w : Database} {c : String} {op : WriteOp} {d : Doc}

/-! ### Documents that look deleted -/

namespace WriteOp

theorem line_entry (op : WriteOp) : op.entry.line = op.line := by
  cases op <;> rfl

end WriteOp

instance (op : WriteOp) : Decidable op.Native :=
  inferInstanceAs (Decidable (∀ d ∈ op.document, _))

/-- Every document written is JSON-native. -/
def EngineOp.Native : EngineOp → Prop
  | .write op => op.Native
  | .compact _ => True

/-! ### The tally of a collection -/

/-- What clients have done to a collection since its file was last made or
compacted: the writes they asked for, those of a transaction when it commits, and
which of these were written and which were superseded in their transaction. -/
structure Tally where
  buffers : Buffers
  asked : List WriteOp
  written : List WriteOp
  superseded : List WriteOp

namespace Tally

/-- Before any call. -/
def start : Tally := ⟨fun _ => [], [], [], []⟩

/-- The file is new, or compacted. -/
def restart (t : Tally) : Tally := { t with asked := [], written := [], superseded := [] }

/-- Writes take effect together: of those to one document, the last. -/
def add (c : String) (t : Tally) (ops : List WriteOp) : Tally :=
  let own := ops.filter fun op => op.collection = c
  { t with
    asked := t.asked ++ own
    written := t.written ++ latestBy WriteOp.target own
    superseded := t.superseded ++ replacedBy WriteOp.target own }

/-- The tally after a step of a client. -/
def play (c : String) (t : Tally) : Event → Tally
  | .engine (.write op) => t.add c [op]
  | .engine (.compact c') => if c' = c then t.restart else t
  | .commit file =>
      { t.add c (t.buffers file) with buffers := (Event.commit file).buffers t.buffers }
  | e => { t with buffers := e.buffers t.buffers }

/-- The tally after a call. -/
def after (c : String) (t : Tally) : Call → Tally
  | .createCollection name _ _ | .dropCollection name => if name = c then t.restart else t
  | .event e => t.play c e
  | .addReverse .. | .removeReverse .. => t

/-- The delete calls. -/
def deletes (t : Tally) : ℕ := t.asked.countP fun op => op.document.isNone

/-- The delete calls that a later operation of their transaction superseded. -/
def supersededDeletes (t : Tally) : ℕ := t.superseded.countP fun op => op.document.isNone

end Tally

/-- Every call returns. -/
def EachReturns : Database → List (Env × Call) → Prop
  | _, [] => True
  | w, (env, call) :: calls =>
      call.perform.value env w = .ok () ∧ EachReturns (call.perform.exec env w) calls

/-- The write a call asks for, now or at a commit. -/
def Call.write? : Call → Option WriteOp
  | .event (.engine (.write op)) | .event (.buffer _ op) => some op
  | _ => none

/-- What is so after every call: all collections have their files, the logs are the
buffers, the tombstones of the file of a collection are the lines in its tally that
look like them, and every write asked for was written or superseded. -/
structure Tallied (c : String) (w : Database) (t : Tally) : Prop where
  serving : Serving w
  logged : Logged (fun _ => True) t.buffers w.disk
  buffered : ∀ file, ∀ op ∈ t.buffers file, op.Native
  native : ∀ op ∈ t.written, op.Native
  lines : (fileLines w.disk c).countP Record.deleted =
    t.written.countP fun op => op.line.deleted
  balance : t.deletes = (t.written.countP fun op => op.document.isNone) + t.supersededDeletes

/-! ### Lines of calls that return -/

/-- An operation that returned. -/
theorem lines_perform (op : EngineOp) (hw : Serving w) (hok : op.perform.value env w = .ok ()) :
    Serving (op.perform.exec env w) ∧ (op.perform.exec env w).disk.wal = w.disk.wal ∧
      fileLines (op.perform.exec env w).disk = lineStep (fileLines w.disk) op := by
  obtain ⟨im, -, -, him, -⟩ := perform_of_ok op hw hok
  have hc : op.collection ∈ w.mem.keys := OrdDict.mem_keys_of_get? him
  rcases hheld : LockManager.blocked env (jsonlPath op.collection) .exclusive with _ | _
  · have hchanged := (perform_spec op hw him hheld).2
    exact ⟨hchanged.serving hc hw, hchanged.wal, fileLines_perform op hw him hheld⟩
  · rw [Prog.value, run_perform_of_blocked op hw hc hheld] at hok
    cases hok

/-- An entry that was applied. -/
theorem lines_applyEntry {e : WALEntry} (hw : Serving w)
    (hok : (applyEntry e).value env w = .ok ()) :
    Serving ((applyEntry e).exec env w) ∧ ((applyEntry e).exec env w).disk.wal = w.disk.wal ∧
      fileLines ((applyEntry e).exec env w).disk =
        Function.update (fileLines w.disk) e.collection
          (fileLines w.disk e.collection ++ [e.line]) := by
  obtain ⟨im, him⟩ := applyEntry_of_ok hok
  have hchanged := changed_applyEntry env e hw him
  refine ⟨hchanged.serving (OrdDict.mem_keys_of_get? him) hw, hchanged.wal, ?_⟩
  rw [Prog.exec, run_applyEntry env e hw him]
  refine (fileLines_congr (IndexManager.sameData_saveWrites _ _)).trans ?_
  exact fileLines_appendJsonl w.disk e.collection e.line

/-- Entries that were applied. -/
theorem lines_applyEntries {entries : List WALEntry} (hw : Serving w)
    (hok : (entries.forM applyEntry).value env w = .ok ()) :
    let w' := (entries.forM applyEntry).exec env w
    Serving w' ∧ w'.disk.wal = w.disk.wal ∧ ∀ c, fileLines w'.disk c =
      fileLines w.disk c ++ (entries.filter fun e => e.collection = c).map WALEntry.line := by
  induction entries generalizing w with
  | nil => exact ⟨hw, rfl, fun c => (List.append_nil _).symm⟩
  | cons e entries ih =>
      have hbind : (applyEntry e >>= fun _ => entries.forM applyEntry).value env w = .ok () := hok
      obtain ⟨_, hone, hrest⟩ := Prog.value_bind_eq_ok.mp hbind
      obtain ⟨hw₁, hwal₁, hlines₁⟩ := lines_applyEntry hw hone
      obtain ⟨hw', hwal, hlines⟩ := ih hw₁ hrest
      show let w' := (applyEntry e >>= fun _ => entries.forM applyEntry).exec env w
        Serving w' ∧ w'.disk.wal = w.disk.wal ∧ ∀ c, fileLines w'.disk c = _
      rw [Prog.exec_bind_ok hone]
      refine ⟨hw', hwal.trans hwal₁, fun c => ?_⟩
      rw [hlines c, hlines₁]
      rcases eq_or_ne e.collection c with rfl | hne
      · simp
      · simp [hne, Function.update_of_ne hne.symm]

/-! ### One call -/

namespace Tally

variable {t : Tally}

/-- A restart forgets what was written. -/
theorem balance_restart (t : Tally) : t.restart.deletes =
    (t.restart.written.countP fun op => op.document.isNone) + t.restart.supersededDeletes := rfl

/-- What is asked for is written or superseded. -/
theorem balance_add (h : t.deletes = (t.written.countP fun op => op.document.isNone) +
    t.supersededDeletes) (ops : List WriteOp) : (t.add c ops).deletes =
      ((t.add c ops).written.countP fun op => op.document.isNone) +
        (t.add c ops).supersededDeletes := by
  have hown := @countP_latestBy_add _ _ _ WriteOp.target (fun op => op.document.isNone)
    (ops.filter fun op => op.collection = c)
  simp only [add, deletes, supersededDeletes, List.countP_append] at h ⊢
  omega

theorem native_add (h : ∀ op ∈ t.written, op.Native) {ops : List WriteOp}
    (hops : ∀ op ∈ ops, op.Native) : ∀ op ∈ (t.add c ops).written, op.Native := by
  intro op hop
  rcases List.mem_append.mp hop with hop | hop
  · exact h op hop
  · exact hops op (List.mem_of_mem_filter (mem_of_mem_latestBy hop))

end Tally

namespace Tallied

variable {t : Tally}

/-- The calls of a run start in an empty directory. -/
theorem start (c : String) : Tallied c emptyDb .start where
  serving := emptyDb_serving
  logged _ _ := rfl
  buffered _ _ hop := absurd hop List.not_mem_nil
  native _ hop := absurd hop List.not_mem_nil
  lines := rfl
  balance := rfl

/-- Writes that take effect together. -/
theorem add {w' : Database} {B : Buffers} {ops : List WriteOp} (h : Tallied c w t)
    (hw : Serving w') (hlogged : Logged (fun _ => True) B w'.disk)
    (hbuffered : ∀ file, ∀ op ∈ B file, op.Native) (hops : ∀ op ∈ ops, op.Native)
    (hlines : (fileLines w'.disk c).countP Record.deleted =
      (fileLines w.disk c).countP Record.deleted +
        (latestBy WriteOp.target (ops.filter fun op => op.collection = c)).countP
          fun op => op.line.deleted) :
    Tallied c w' { t.add c ops with buffers := B } where
  serving := hw
  logged := hlogged
  buffered := hbuffered
  native := Tally.native_add h.native hops
  lines := by
    rw [hlines, h.lines]
    exact (List.countP_append ..).symm
  balance := Tally.balance_add h.balance ops

/-- Calls that leave the file as it is. -/
theorem keep {w' : Database} {B : Buffers} (h : Tallied c w t) (hw : Serving w')
    (hlogged : Logged (fun _ => True) B w'.disk) (hbuffered : ∀ file, ∀ op ∈ B file, op.Native)
    (hlines : fileLines w'.disk c = fileLines w.disk c) :
    Tallied c w' { t with buffers := B } where
  serving := hw
  logged := hlogged
  buffered := hbuffered
  native := h.native
  lines := hlines ▸ h.lines
  balance := h.balance

/-- Calls that make or compact the file. -/
theorem restart {w' : Database} (h : Tallied c w t) (hw : Serving w')
    (hwal : w'.disk.wal = w.disk.wal)
    (hlines : ∀ r ∈ fileLines w'.disk c, r.deleted = false) : Tallied c w' t.restart where
  serving := hw
  logged file hfile := hwal ▸ h.logged file hfile
  buffered := h.buffered
  native _ hop := absurd hop List.not_mem_nil
  lines := List.countP_eq_zero.mpr fun r hr => ne_true_of_eq_false (hlines r hr)
  balance := t.balance_restart

theorem perform (h : Tallied c w t) (op : EngineOp) (hnative : ∀ op', op = .write op' → op'.Native)
    (hok : op.perform.value env w = .ok ()) :
    Tallied c (op.perform.exec env w) (t.play c (.engine op)) := by
  obtain ⟨hw, hwal, hlines⟩ := lines_perform op h.serving hok
  have hlogged : Logged (fun _ => True) t.buffers (op.perform.exec env w).disk := fun file hfile =>
    hwal ▸ h.logged file hfile
  cases op with
  | write op =>
      have hcollection : (EngineOp.write op).collection = op.collection := rfl
      refine h.add hw hlogged h.buffered (fun op' hop' => ?_) ?_
      · exact List.mem_singleton.mp hop' ▸ hnative op rfl
      · rw [hlines]
        rcases eq_or_ne op.collection c with rfl | hne
        · rw [lineStep, EngineOp.collection, Function.update_self, EngineOp.newLines,
            List.countP_append]
          simp [latestBy]
        · rw [lineStep_of_ne _ (hcollection.trans_ne hne)]
          simp [hne, latestBy]
  | compact c' =>
      show Tallied c _ (if c' = c then t.restart else t)
      split
      · next heq =>
          refine h.restart hw hwal fun r hr => ?_
          rw [hlines, ← heq, lineStep, EngineOp.collection, Function.update_self] at hr
          exact Table.deleted_of_mem_rows (DocumentStore.table_wf _) hr
      · next hne =>
          have hother : (EngineOp.compact c').collection ≠ c := hne
          refine h.keep hw hlogged h.buffered ?_
          rw [hlines, lineStep_of_ne _ hother]

/-- The lines that a commit adds. -/
theorem countP_dedup_walEntries (c : String) {ops : List WriteOp} (h : ∀ op ∈ ops, op.Native) :
    (((WAL.dedup (walEntries ops)).filter fun e => e.collection = c).map WALEntry.line).countP
      Record.deleted = (latestBy WriteOp.target (ops.filter fun op => op.collection = c)).countP
        fun op => op.line.deleted := by
  have hentries : walEntries ops = ops.map WriteOp.entry :=
    List.map_congr_left fun op hop => WriteOp.viaJson_entry (h op hop)
  have htarget : WALEntry.target ∘ WriteOp.entry = WriteOp.target := by
    funext op
    cases op <;> rfl
  have hcollection : (fun e : WALEntry => decide (e.collection = c)) ∘ WriteOp.entry =
      fun op => decide (op.collection = c) := by
    funext op
    cases op <;> rfl
  have hdeleted : Record.deleted ∘ WALEntry.line ∘ WriteOp.entry =
      fun op => op.line.deleted := by
    funext op
    rw [Function.comp_apply, Function.comp_apply, op.line_entry]
  have hfilter := @latestBy_filter _ _ _ WriteOp.target (fun k => decide (k.1 = c)) ops
  rw [hentries, ((WAL.dedup_perm_latestBy _).filter _ |>.map _).countP_eq, latestBy_map, htarget,
    List.filter_map, hcollection, List.map_map, List.countP_map, hdeleted]
  exact congrArg (List.countP _) hfilter.symm

theorem commit (h : Tallied c w t) (file : String)
    (hok : (Transaction.commit file).value env w = .ok ()) :
    Tallied c ((Transaction.commit file).exec env w) (t.play c (.commit file)) := by
  have hlog := h.logged file trivial
  split at hlog
  -- a transaction that has buffered nothing has no log
  · rw [Prog.value, run_commit_of_missing env hlog] at hok
    cases hok
  have hrun := run_commit env hlog
  have hloop : ((WAL.dedup (walEntries (t.buffers file))).forM applyEntry >>= fun _ =>
      WAL.delete file).value env w = .ok () := (congrArg Outcome.result hrun).symm.trans hok
  obtain ⟨_, hentries, -⟩ := Prog.value_bind_eq_ok.mp hloop
  obtain ⟨hw, hwal, hlines⟩ := lines_applyEntries h.serving hentries
  have hexec : (Transaction.commit file).exec env w =
      ⟨(((WAL.dedup (walEntries (t.buffers file))).forM applyEntry).exec env w).mem,
        (((WAL.dedup (walEntries (t.buffers file))).forM applyEntry).exec env w).disk.write
          (.unlinkWal file)⟩ := (commit_spec hlog hentries).2
  rw [hexec]
  refine h.add hw ?_ (buffered_close (P := EngineOp.Native) h.buffered file) (h.buffered file) ?_
  · apply Logged.unlink
    intro g hg
    rw [hwal]
    exact h.logged g hg
  · refine (congrArg (List.countP _) (hlines c)).trans ?_
    rw [List.countP_append, countP_dedup_walEntries c (h.buffered file)]

theorem play (h : Tallied c w t) (e : Event)
    (hnative : ∀ op ∈ (Call.event e).write?, op.Native)
    (hok : e.play.value env w = .ok ()) : Tallied c (e.play.exec env w) (t.play c e) := by
  cases e with
  | engine op =>
      refine h.perform op (fun op' heq => ?_) hok
      subst heq
      exact hnative op' rfl
  | begin => exact h
  | buffer file op =>
      exact h.keep h.serving (h.logged.buffer trivial op)
        (buffered_buffer (P := EngineOp.Native) h.buffered file (hnative op rfl)) rfl
  | commit file => exact h.commit file hok
  | rollback file =>
      exact h.keep h.serving (h.logged.unlink file)
        (buffered_close (P := EngineOp.Native) h.buffered file) rfl

/-- A collection that is made or removed, with the files of the others kept. -/
theorem replace {w' : Database} {name : String} (h : Tallied c w t) (hw : Serving w')
    (hwal : w'.disk.wal = w.disk.wal) (hnew : fileLines w'.disk name = [])
    (hothers : ∀ c ≠ name, w'.disk.jsonl (jsonlPath c) = w.disk.jsonl (jsonlPath c)) :
    Tallied c w' (if name = c then t.restart else t) := by
  split
  · next heq =>
      refine h.restart hw hwal fun r hr => ?_
      rw [← heq, hnew] at hr
      cases hr
  · next hne =>
      refine h.keep hw (fun file hfile => hwal ▸ h.logged file hfile) h.buffered ?_
      rw [fileLines, fileLines, hothers c (Ne.symm hne)]

/-- An edit of the reverse index that returns. -/
theorem editReverse (h : Tallied c w t) {name : String} {edit : StoreM IndexManager Unit}
    (hedit : ∀ im disk, ∃ im', edit.run env ⟨im, disk⟩ = ⟨.ok (), im', im'.saveWrites⟩)
    (hok : (StorageEngine.indexes name edit).value env w = .ok ()) :
    Tallied c ((StorageEngine.indexes name edit).exec env w) t := by
  rcases him : w.mem.get? name with _ | im
  · have hmissing : (StorageEngine.indexes name edit).value env w = .error (.keyError name) := by
      simp [Prog.value, Prog.run, StorageEngine.indexes, Prog.focus, him]
    rw [hmissing] at hok
    cases hok
  · obtain ⟨im', hrun⟩ := hedit im w.disk
    have hsave : (StorageEngine.indexes name edit).run env w =
        ⟨.ok (), w.mem.set name im', im'.saveWrites⟩ := Prog.run_focus him hrun
    have hchanged := changed_of_save hsave
    have hsame : w.disk.SameData ((StorageEngine.indexes name edit).exec env w).disk := by
      rw [Prog.exec, hsave]
      exact im'.sameData_saveWrites w.disk
    refine h.keep (hchanged.serving (OrdDict.mem_keys_of_get? him) h.serving) ?_ h.buffered
      (congrFun (fileLines_congr hsame) c)
    intro file hfile
    rw [hchanged.wal]
    exact h.logged file hfile

/-- **Every call that returns** keeps the tally. -/
theorem call (h : Tallied c w t) (call : Call)
    (hnative : ∀ op ∈ call.write?, op.Native)
    (hok : call.perform.value env w = .ok ()) :
    Tallied c (call.perform.exec env w) (t.after c call) := by
  cases call with
  | createCollection name specs drop =>
      have hcreated := createCollection_spec hok
      refine h.replace (hcreated.serving h.serving) hcreated.wal ?_ fun c' hne =>
        (hcreated.others c' hne).2
      rw [fileLines, Call.perform, hcreated.jsonl]
      rfl
  | dropCollection name =>
      have hc : name ∈ w.mem.keys := by
        obtain ⟨_, hrequire, -⟩ := Prog.value_bind_eq_ok.mp hok
        refine Decidable.byContradiction fun hnot => ?_
        rw [Prog.value, run_require_of_notMem hnot] at hrequire
        cases hrequire
      obtain ⟨-, hgone, hnone, hothers, hwal⟩ := dropCollection_spec env hc
      refine h.replace (fun c' hc' => ?_) hwal ?_ fun c' hne => (hothers c' hne).2
      · have hne : c' ≠ name := fun heq => hgone (heq ▸ hc')
        rw [Call.perform, (hothers c' hne).2]
        refine h.serving c' (OrdDict.isSome_get?_iff.mp ?_)
        rw [← (hothers c' hne).1]
        exact OrdDict.isSome_get?_iff.mpr hc'
      · rw [fileLines, Call.perform, hnone]
        rfl
  | event e => exact h.play e hnative hok
  | addReverse name parentId childId =>
      exact h.editReverse (fun im _ =>
        ⟨{ im with reverse := im.reverse.add parentId childId }, rfl⟩) hok
  | removeReverse name parentId childId =>
      exact h.editReverse (fun im _ =>
        ⟨{ im with reverse := im.reverse.remove parentId childId }, rfl⟩) hok

/-- **A run of calls that return** keeps the tally. -/
theorem calls {calls : List (Env × Call)} (h : Tallied c w t) (hreturn : EachReturns w calls)
    (hnative : ∀ call ∈ calls, ∀ op ∈ call.2.write?, op.Native) :
    Tallied c (performCalls calls w) (calls.foldl (fun t call => t.after c call.2) t) := by
  induction calls generalizing w t with
  | nil => exact h
  | cons call calls ih =>
      exact ih (h.call call.2 (hnative call List.mem_cons_self) hreturn.1) hreturn.2
        fun call' hcall' => hnative call' (List.mem_cons_of_mem _ hcall')

end Tallied

/-! ### Documents that are kept apart from tombstones -/

end JsonpySql
