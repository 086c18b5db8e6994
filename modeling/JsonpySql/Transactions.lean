/-
JsonpySql/Transactions.lean

Any number of transactions on one engine, interleaved with direct operations.

A transaction is known by its log.  `Buffers` is what the open transactions
have buffered; `completed` is the serial run an interleaving stands for: the
direct operations and, at each commit, the operations buffered until then, one
after another.  The logs always spell out the buffers (`Logged`), so a commit
applies the deduplication of what it buffered, which the store cannot tell
from the whole list (`store_run_dedup`).
-/
import JsonpySql.Effects

namespace JsonpySql

open StorageEngine

/-! ### What clients do -/

/-- One step of a client: an operation of the engine, or a step of the
transaction with log `file`. -/
inductive Event
  | engine (op : EngineOp)
  | begin
  | buffer (file : String) (op : WriteOp)
  | commit (file : String)
  | rollback (file : String)
deriving DecidableEq

/-- What every transaction has buffered, by the name of its log. -/
abbrev Buffers := String → List WriteOp

namespace Event

/-- The call. -/
def play : Event → EngineM Unit
  | .engine op => op.perform
  | .begin => discard Transaction.begin
  | .buffer file op => Transaction.buffer file op
  | .commit file => Transaction.commit file
  | .rollback file => Transaction.rollback file

/-- The log a step belongs to. -/
def file? : Event → Option String
  | .buffer file _ | .commit file | .rollback file => some file
  | .engine _ | .begin => none

/-- The operation a step asks for. -/
def op? : Event → Option EngineOp
  | .engine op => some op
  | .buffer _ op => some (.write op)
  | _ => none

/-- The buffers after a step. -/
def buffers (B : Buffers) : Event → Buffers
  | .buffer file op => Function.update B file (B file ++ [op])
  | .commit file | .rollback file => Function.update B file []
  | .engine _ | .begin => B

/-- A commit finds at least one operation buffered. -/
def Committable (B : Buffers) : Event → Prop
  | .commit file => B file ≠ []
  | _ => True

instance (B : Buffers) : (e : Event) → Decidable (e.Committable B)
  | .commit file => inferInstanceAs (Decidable (B file ≠ []))
  | .engine _ | .begin | .buffer _ _ | .rollback _ => .isTrue trivial

/-- The operations a step completes. -/
def effect (B : Buffers) : Event → List EngineOp
  | .engine op => [op]
  | .commit file => (B file).map .write
  | _ => []

end Event

/-- Play the steps of all clients in their order. -/
def playAll (es : List Event) : EngineM Unit := es.forM Event.play

/-- The operations that have completed, in the order of completion. -/
def completedFrom (B : Buffers) : List Event → List EngineOp
  | [] => []
  | e :: es => e.effect B ++ completedFrom (e.buffers B) es

/-- The operations that have completed since no transaction was open. -/
def completed (es : List Event) : List EngineOp := completedFrom (fun _ => []) es

/-- Every commit finds at least one operation buffered. -/
def CommittableFrom (B : Buffers) : List Event → Prop
  | [] => True
  | e :: es => e.Committable B ∧ CommittableFrom (e.buffers B) es

instance : (B : Buffers) → (es : List Event) → Decidable (CommittableFrom B es)
  | _, [] => .isTrue trivial
  | B, e :: es =>
      have := instDecidableCommittableFrom (e.buffers B) es
      inferInstanceAs (Decidable (e.Committable B ∧ CommittableFrom (e.buffers B) es))

/-- Every commit since no transaction was open finds an operation buffered. -/
def Committable (es : List Event) : Prop := CommittableFrom (fun _ => []) es

instance (es : List Event) : Decidable (Committable es) :=
  inferInstanceAs (Decidable (CommittableFrom _ es))

/-! ### The logs -/

/-- The log of a list of buffered operations. -/
def logOf (ops : List WriteOp) : List WalLine := ops.map fun op => .entry op.entry.viaJson

/-- The logs with names in `F` spell out the buffers. -/
def Logged (F : String → Prop) (B : Buffers) (disk : Disk) : Prop :=
  ∀ file, F file → disk.wal.get? file = if B file = [] then none else some (logOf (B file))

/-- The entries of a log, as they are read back. -/
def walEntries (ops : List WriteOp) : List WALEntry := ops.map fun op => op.entry.viaJson

theorem logOf_eq (ops : List WriteOp) : logOf ops = (walEntries ops).map .entry := by
  simp [logOf, walEntries]

/-- Reading a log puts into the store what the buffered writes would put. -/
theorem store_run_walEntries (T : String → Table) (ops : List WriteOp) :
    store.run T ((WAL.dedup (walEntries ops)).map WALEntry.toPut) =
      store.run T (ops.map WriteOp.toPut) := by
  rw [store_run_dedup, walEntries, List.map_map]
  congr 1
  exact List.map_congr_left fun op _ => WALEntry.toPut_entry op

/-- Every entry read from a log is that of a buffered operation. -/
theorem mem_dedup_walEntries {ops : List WriteOp} {e : WALEntry}
    (h : e ∈ WAL.dedup (walEntries ops)) : ∃ op ∈ ops, op.entry.viaJson = e :=
  List.mem_map.mp (WAL.mem_of_mem_dedup h)

/-- Every buffered operation's document has an entry. -/
theorem exists_mem_dedup_walEntries {ops : List WriteOp} {op : WriteOp} (h : op ∈ ops) :
    ∃ e ∈ WAL.dedup (walEntries ops), e.target = op.target := by
  have htarget := WAL.target_mem_dedup (List.mem_map_of_mem h : op.entry.viaJson ∈ walEntries ops)
  obtain ⟨e, he, heq⟩ := List.mem_map.mp htarget
  exact ⟨e, he, heq.trans (Prod.ext op.collection_entry op.docId_entry)⟩

variable {env : Env} {w : Database} {F : String → Prop} {B : Buffers}

theorem Logged.update {disk disk' : Disk} {file : String} {ops : List WriteOp}
    (h : Logged F B disk)
    (hfile : disk'.wal.get? file = if ops = [] then none else some (logOf ops))
    (hother : ∀ g, g ≠ file → disk'.wal.get? g = disk.wal.get? g) :
    Logged F (Function.update B file ops) disk' := by
  intro g hg
  rcases eq_or_ne g file with rfl | hne
  · rw [Function.update_self]
    exact hfile
  · rw [Function.update_of_ne hne, hother g hne]
    exact h g hg

theorem Logged.buffer {disk : Disk} (h : Logged F B disk) {file : String} (hf : F file)
    (op : WriteOp) :
    Logged F (Function.update B file (B file ++ [op]))
      (disk.write (.appendWal file (.entry op.entry.viaJson))) := by
  apply h.update
  · have hlog : (disk.wal.get? file).getD [] = logOf (B file) := by
      rw [h file hf]
      split
      · next hnil => rw [hnil]; rfl
      · rfl
    show (disk.wal.set file ((disk.wal.get? file).getD [] ++ _)).get? file = _
    rw [OrdDict.get?_set_self, hlog]
    simp [logOf]
  · intro g hne
    exact OrdDict.get?_set_of_ne _ _ hne

theorem Logged.unlink {disk : Disk} (h : Logged F B disk) (file : String) :
    Logged F (Function.update B file []) (disk.write (.unlinkWal file)) := by
  apply h.update
  · show (disk.wal.erase file).get? file = _
    rw [OrdDict.get?_erase, if_pos rfl, if_pos rfl]
  · intro g hne
    show (disk.wal.erase file).get? g = _
    rw [OrdDict.get?_erase, if_neg hne]

/-! ### One commit -/

/-- A commit of a non-empty log applies its deduplicated entries. -/
theorem run_commit (env : Env) {file : String} {ops : List WriteOp}
    (hlog : w.disk.wal.get? file = some (logOf ops)) :
    (Transaction.commit file).run env w =
      ((WAL.dedup (walEntries ops)).forM applyEntry >>= fun _ => WAL.delete file).run env w := by
  have hread : (WAL.readEntries file : EngineM _).run env w =
      ⟨.ok (WAL.dedup (walEntries ops)), w.mem, []⟩ :=
    WAL.run_readEntries (by rw [hlog, logOf_eq])
  exact Prog.run_bind_read hread

/-- A commit of nothing raises: there is no log to read. -/
theorem run_commit_of_missing (env : Env) {file : String} (h : w.disk.wal.get? file = none) :
    (Transaction.commit file).run env w = ⟨.error (.walReplayError
      ("Cannot read WAL " ++ env.path file ++ ": " ++ env.noSuchFile file)), w.mem, []⟩ :=
  Prog.run_bind_error (WAL.run_readEntries_of_missing h)

/-- A commit whose entries can be applied removes the log. -/
theorem commit_spec {file : String} {ops : List WriteOp}
    (hlog : w.disk.wal.get? file = some (logOf ops))
    (hok : ((WAL.dedup (walEntries ops)).forM applyEntry).value env w = .ok ()) :
    (Transaction.commit file).value env w = .ok () ∧
      (Transaction.commit file).exec env w =
        ⟨(((WAL.dedup (walEntries ops)).forM applyEntry).exec env w).mem,
          (((WAL.dedup (walEntries ops)).forM applyEntry).exec env w).disk.write
            (.unlinkWal file)⟩ := by
  rw [Prog.value, Prog.exec, run_commit env hlog]
  exact ⟨Prog.value_bind_ok hok, Prog.exec_bind_ok hok⟩

/-- **Simulation of a commit**: what one applied entry keeps in step with an
abstract state, the commit keeps. -/
theorem commit_simulation {S : Type*} (env : Env) (R : Database → S → Prop)
    (step : S → WALEntry → S) {file : String} {ops : List WriteOp} {s : S} (hw : Serving w)
    (hlog : w.disk.wal.get? file = some (logOf ops))
    (hreg : ∀ op ∈ ops, op.collection ∈ w.mem.keys) (h0 : R w s)
    (hframe : ∀ {w₁ w₂ s}, R w₁ s → w₂.mem = w₁.mem → w₂.disk.jsonl = w₁.disk.jsonl → R w₂ s)
    (hstep : ∀ op ∈ ops, ∀ w₁ w₂ s im, R w₁ s → w₁.mem.get? op.collection = some im →
      Changed w₁ w₂ op.collection (op.entry.viaJson.newTable (tables w₁.disk op.collection))
        (op.entry.viaJson.newIndexes (tables w₁.disk op.collection) im) →
      R w₂ (step s op.entry.viaJson)) :
    (Transaction.commit file).value env w = .ok () ∧
      Serving ((Transaction.commit file).exec env w) ∧
      ((Transaction.commit file).exec env w).mem.keys = w.mem.keys ∧
      ((Transaction.commit file).exec env w).disk.wal = w.disk.wal.erase file ∧
      R ((Transaction.commit file).exec env w) ((WAL.dedup (walEntries ops)).foldl step s) := by
  -- the loop over the entries that were read back
  obtain ⟨hok, hw', hkeys', hwal, hR⟩ := applyEntries_simulation env
    (fun w₁ s => w₁.disk.wal = w.disk.wal ∧ R w₁ s) step hw
    (fun e (he : e ∈ WAL.dedup (walEntries ops)) => by
      obtain ⟨op, hop, rfl⟩ := mem_dedup_walEntries he
      rw [WriteOp.collection_entry]
      exact hreg op hop)
    ⟨rfl, h0⟩
    (fun e he w₁ w₂ s im hR him hchanged => by
      obtain ⟨op, hop, rfl⟩ := mem_dedup_walEntries he
      rw [WriteOp.collection_entry] at him hchanged
      exact ⟨hchanged.wal.trans hR.1, hstep op hop w₁ w₂ s im hR.2 him hchanged⟩)
  obtain ⟨hcok, hcexec⟩ := commit_spec hlog hok
  rw [hcexec]
  exact ⟨hcok, hw', hkeys', congrArg (·.erase file) hwal, hframe hR rfl rfl⟩

/-! ### Runs -/

/-- `R` moves in step with an abstract state on which operations act by `step`
and logged entries by `entryStep`, and which cannot tell the deduplicated
entries of a log from its operations; `P` says which operations clients use. -/
structure Lockstep {S : Type*} (R : Database → S → Prop) (step : S → EngineOp → S)
    (entryStep : S → WALEntry → S) (P : EngineOp → Prop) : Prop where
  frame : ∀ {w w' s}, R w s → w'.mem = w.mem → w'.disk.jsonl = w.disk.jsonl → R w' s
  op : ∀ {op w w' s im}, P op → R w s → w.mem.get? op.collection = some im →
    Changed w w' op.collection (op.newTable (tables w.disk op.collection))
      (op.newIndexes (tables w.disk op.collection) im) → R w' (step s op)
  entry : ∀ {op w w' s im}, P (.write op) → R w s → w.mem.get? op.collection = some im →
    Changed w w' op.collection (op.entry.viaJson.newTable (tables w.disk op.collection))
      (op.entry.viaJson.newIndexes (tables w.disk op.collection) im) →
    R w' (entryStep s op.entry.viaJson)
  commit : ∀ ops s, (WAL.dedup (walEntries ops)).foldl entryStep s =
    (ops.map EngineOp.write).foldl step s

/-- What a run keeps: the collections with their files, the logs, and `R`. -/
structure Running {S : Type*} (R : Database → S → Prop) (P : EngineOp → Prop)
    (F : String → Prop) (keys : List String) (B : Buffers) (w : Database) (s : S) : Prop where
  serving : Serving w
  keys : w.mem.keys = keys
  buffered : ∀ file, ∀ op ∈ B file, P (.write op)
  logged : Logged F B w.disk
  rel : R w s

section Runs

variable {S : Type*} {R : Database → S → Prop} {step : S → EngineOp → S}
  {entryStep : S → WALEntry → S} {P : EngineOp → Prop} {keys : List String} {s : S}

/-- A run starts without open transactions. -/
theorem Running.start (hw : Serving w) (hF : ∀ file, F file → w.disk.wal.get? file = none)
    (h0 : R w s) : Running R P F w.mem.keys (fun _ => []) w s where
  serving := hw
  keys := rfl
  buffered _ _ hop := absurd hop List.not_mem_nil
  logged := hF
  rel := h0

/-- Closing a transaction leaves the other buffers. -/
theorem buffered_close (hB : ∀ file, ∀ op ∈ B file, P (.write op)) (file : String) :
    ∀ g, ∀ op ∈ Function.update B file [] g, P (.write op) := by
  intro g op hop
  rcases eq_or_ne g file with rfl | hg
  · simp at hop
  · rw [Function.update_of_ne hg] at hop
    exact hB g op hop

theorem buffered_buffer (hB : ∀ file, ∀ op ∈ B file, P (.write op)) (file : String)
    {op : WriteOp} (hop : P (.write op)) :
    ∀ g, ∀ op' ∈ Function.update B file (B file ++ [op]) g, P (.write op') := by
  intro g op' hop'
  rcases eq_or_ne g file with rfl | hg
  · rw [Function.update_self, List.mem_append, List.mem_singleton] at hop'
    rcases hop' with hold | rfl
    · exact hB g op' hold
    · exact hop
  · rw [Function.update_of_ne hg] at hop'
    exact hB g op' hop'

/-- A commit keeps everything, and stands for the operations buffered. -/
theorem Running.commit (hL : Lockstep R step entryStep P) (hreg : ∀ op, P op → op.collection ∈ keys)
    (h : Running R P F keys B w s) {file : String} (hF : F file) (hne : B file ≠ []) :
    (Transaction.commit file).value env w = .ok () ∧
      Running R P F keys (Function.update B file []) ((Transaction.commit file).exec env w)
        (((B file).map EngineOp.write).foldl step s) := by
  have hlog : w.disk.wal.get? file = some (logOf (B file)) := by
    rw [h.logged file hF, if_neg hne]
  obtain ⟨hok, hw', hkeys', hwal, hR⟩ := commit_simulation env R entryStep h.serving hlog
    (fun op hop => h.keys ▸ hreg _ (h.buffered file op hop)) h.rel hL.frame
    (fun op hop _ _ _ _ => hL.entry (h.buffered file op hop))
  rw [hL.commit] at hR
  refine ⟨hok, hw', hkeys'.trans h.keys, buffered_close h.buffered file, ?_, hR⟩
  -- the removal of the log empties the buffer
  intro g hg
  rw [hwal]
  exact h.logged.unlink file g hg

/-- **One step of a client** succeeds and keeps everything. -/
theorem Running.play (hL : Lockstep R step entryStep P) (hreg : ∀ op, P op → op.collection ∈ keys)
    (henv : env.Alone) (h : Running R P F keys B w s) {e : Event} (hP : ∀ op ∈ e.op?, P op)
    (hF : ∀ file ∈ e.file?, F file) (hne : e.Committable B) :
    e.play.value env w = .ok () ∧
      Running R P F keys (e.buffers B) (e.play.exec env w) ((e.effect B).foldl step s) := by
  cases e with
  | engine op =>
      have hop : P op := hP op rfl
      have hc : op.collection ∈ w.mem.keys := h.keys ▸ hreg op hop
      obtain ⟨im, him⟩ := OrdDict.exists_get?_of_mem hc
      obtain ⟨hok, hchanged⟩ := perform_spec_of_alone op henv h.serving him
      refine ⟨hok, hchanged.serving hc h.serving, (hchanged.keys hc).trans h.keys, h.buffered, ?_,
        hL.op hop h.rel him hchanged⟩
      intro file hfile
      show (op.perform.exec env w).disk.wal.get? file = _
      rw [hchanged.wal]
      exact h.logged file hfile
  | begin => exact ⟨rfl, h⟩
  | buffer file op =>
      exact ⟨rfl, h.serving, h.keys, buffered_buffer h.buffered file (hP _ rfl),
        h.logged.buffer (hF file rfl) op, hL.frame h.rel rfl rfl⟩
  | commit file => exact h.commit hL hreg (hF file rfl) hne
  | rollback file =>
      exact ⟨rfl, h.serving, h.keys, buffered_close h.buffered file, h.logged.unlink file,
        hL.frame h.rel rfl rfl⟩

/-- **An interleaving** succeeds, and its abstract state is that of the serial
run of what has completed. -/
theorem Running.playAll (hL : Lockstep R step entryStep P)
    (hreg : ∀ op, P op → op.collection ∈ keys) (henv : env.Alone) {es : List Event}
    (h : Running R P F keys B w s) (hP : ∀ e ∈ es, ∀ op ∈ e.op?, P op)
    (hF : ∀ e ∈ es, ∀ file ∈ e.file?, F file) (hne : CommittableFrom B es) :
    (playAll es).value env w = .ok () ∧
      ∃ B', Running R P F keys B' ((JsonpySql.playAll es).exec env w)
        ((completedFrom B es).foldl step s) := by
  induction es generalizing w B s with
  | nil => exact ⟨rfl, B, h⟩
  | cons e es ih =>
      obtain ⟨hok, h'⟩ := h.play hL hreg henv (hP e List.mem_cons_self)
        (hF e List.mem_cons_self) hne.1
      show (e.play >>= fun _ => JsonpySql.playAll es).value env w = .ok () ∧
        ∃ B', Running R P F keys B' ((e.play >>= fun _ => JsonpySql.playAll es).exec env w)
          ((e.effect B ++ completedFrom (e.buffers B) es).foldl step s)
      rw [Prog.value_bind_ok hok, Prog.exec_bind_ok hok, List.foldl_append]
      exact ih h' (fun e' he' => hP e' (List.mem_cons_of_mem _ he'))
        (fun e' he' => hF e' (List.mem_cons_of_mem _ he')) hne.2

end Runs

/-! ### Serial runs -/

/-- An operation on the tables. -/
def tableStep (T : String → Table) (op : EngineOp) : String → Table :=
  Function.update T op.collection (op.newTable (T op.collection))

/-- A logged entry on the tables. -/
def entryTableStep (T : String → Table) (e : WALEntry) : String → Table :=
  store.put T e.target e.line.slot

theorem foldl_entryTableStep (entries : List WALEntry) (T : String → Table) :
    entries.foldl entryTableStep T = store.run T (entries.map WALEntry.toPut) := by
  rw [LastWins.run, List.foldl_map]
  rfl

theorem foldl_tableStep_write (ops : List WriteOp) (T : String → Table) :
    (ops.map EngineOp.write).foldl tableStep T = store.run T (ops.map WriteOp.toPut) := by
  rw [LastWins.run, List.foldl_map, List.foldl_map]
  rfl

/-- The tables move in step with the operations. -/
theorem lockstep_tables (P : EngineOp → Prop) :
    Lockstep (fun w T => tables w.disk = T) tableStep entryTableStep P where
  frame := by
    rintro w w' T rfl _ hfiles
    funext c
    rw [tables, tables, hfiles]
  op := by
    rintro op w w' T im _ rfl _ hchanged
    exact hchanged.tables
  entry := by
    rintro op w w' T im _ rfl _ hchanged
    show tables w'.disk = store.put (tables w.disk) _ _
    rw [hchanged.tables, WALEntry.target, WriteOp.collection_entry, store_put]
    rfl
  commit ops T := by
    rw [foldl_entryTableStep, store_run_walEntries, foldl_tableStep_write]

/-- A sequence of operations leaves the tables their fold leaves. -/
theorem performAll_tableStep {ops : List EngineOp} (henv : env.Alone) (hw : Serving w)
    (hreg : ∀ op ∈ ops, op.collection ∈ w.mem.keys) :
    (performAll ops).value env w = .ok () ∧ Serving ((performAll ops).exec env w) ∧
      ((performAll ops).exec env w).mem.keys = w.mem.keys ∧
      tables ((performAll ops).exec env w).disk = ops.foldl tableStep (tables w.disk) := by
  apply performAll_simulation (fun w T => tables w.disk = T) tableStep henv hw hreg rfl
  intro op _ w₁ w₂ T im hT him hchanged
  exact (lockstep_tables fun _ => True).op trivial hT him hchanged

/-- Only operations that clients asked for complete. -/
theorem mem_completedFrom {P : EngineOp → Prop} {es : List Event}
    (hP : ∀ e ∈ es, ∀ op ∈ e.op?, P op) (hB : ∀ file, ∀ op ∈ B file, P (.write op)) :
    ∀ op ∈ completedFrom B es, P op := by
  induction es generalizing B with
  | nil => intro op hop; cases hop
  | cons e es ih =>
      intro op hop
      have hPe := hP e List.mem_cons_self
      have htail := fun B' => @ih B' fun e' he' => hP e' (List.mem_cons_of_mem _ he')
      rcases List.mem_append.mp hop with hop | hop
      · -- completed by this step
        cases e with
        | engine op' => exact List.mem_singleton.mp hop ▸ hPe op' rfl
        | commit file =>
            obtain ⟨op', hop', rfl⟩ := List.mem_map.mp hop
            exact hB file op' hop'
        | begin | buffer _ _ | rollback _ => cases hop
      · -- completed later
        cases e with
        | engine _ | begin => exact htail _ hB op hop
        | buffer file op' => exact htail _ (buffered_buffer hB file (hPe _ rfl)) op hop
        | commit file | rollback file => exact htail _ (buffered_close hB file) op hop

/-- **Transactions are isolated and serialise in commit order.**  After any
interleaving of direct operations with the steps of any number of transactions,
`get` and `scan` answer as after the serial run of what has completed. -/
theorem transactions_serialise (es : List Event) (henv : env.Alone) (hw : Serving w)
    (hreg : ∀ e ∈ es, ∀ op ∈ e.op?, op.collection ∈ w.mem.keys)
    (hfresh : ∀ e ∈ es, ∀ file ∈ e.file?, w.disk.wal.get? file = none)
    (hcommit : Committable es) :
    let w' := (playAll es).exec env w
    let serial := (performAll (completed es)).exec env w
    (playAll es).value env w = .ok () ∧ (performAll (completed es)).value env w = .ok () ∧
    ∀ c ∈ w.mem.keys,
      (∀ i, (StorageEngine.get c i).value env w' = (StorageEngine.get c i).value env serial) ∧
      (StorageEngine.scan c).value env w' = (StorageEngine.scan c).value env serial := by
  intro w' serial
  have hstart : Running (fun w T => tables w.disk = T)
      (fun op : EngineOp => op.collection ∈ w.mem.keys) (fun file => w.disk.wal.get? file = none)
      w.mem.keys (fun _ => []) w (tables w.disk) := .start hw (fun _ h => h) rfl
  obtain ⟨hok, B', hw', hkeys', -, -, htables⟩ :=
    hstart.playAll (lockstep_tables _) (fun _ h => h) henv hreg hfresh hcommit
  have hdone : ∀ op ∈ completed es, op.collection ∈ w.mem.keys :=
    mem_completedFrom hreg fun _ _ hop => absurd hop List.not_mem_nil
  obtain ⟨hsok, hserial, hskeys, hstables⟩ := performAll_tableStep henv hw hdone
  have heq : tables w'.disk = tables serial.disk := htables.trans hstables.symm
  refine ⟨hok, hsok, fun c hc => ⟨fun i => ?_, ?_⟩⟩
  · rw [value_get henv hw' (hkeys'.symm ▸ hc), value_get henv hserial (hskeys.symm ▸ hc), heq]
  · rw [value_scan henv hw' (hkeys'.symm ▸ hc), value_scan henv hserial (hskeys.symm ▸ hc), heq]

/-- Two transactions and a direct write; the first commits last, with two
writes to one document around a write to another. -/
theorem transactions_serialise_users :
    let es : List Event :=
      [.begin, .buffer "a.wal" (.insert "users" "1" (OrdDict.ofList [("email", .str "a")])),
        .begin, .buffer "b.wal" (.insert "users" "3" OrdDict.empty),
        .engine (.write (.insert "users" "1" (OrdDict.ofList [("email", .str "x")]))),
        .buffer "a.wal" (.insert "users" "2" OrdDict.empty), .commit "b.wal",
        .buffer "b.wal" (.delete "users" "2"),
        .buffer "a.wal" (.update "users" "1" (OrdDict.ofList [("email", .str "b")])),
        .commit "a.wal", .rollback "b.wal"]
    let w' := (playAll es).exec onlyClient usersDb
    let serial := (performAll (completed es)).exec onlyClient usersDb
    (StorageEngine.scan "users").value onlyClient w' =
        (StorageEngine.scan "users").value onlyClient serial ∧
      (StorageEngine.get "users" "1").value onlyClient w' =
        .ok (some (OrdDict.ofList [("email", .str "b")])) := by
  intro es w' serial
  obtain ⟨-, -, heq⟩ := transactions_serialise es onlyClient_alone usersDb_serving (by decide)
    (by decide) (by decide)
  obtain ⟨hget, hscan⟩ := heq "users" (by decide)
  exact ⟨hscan, (hget "1").trans rfl⟩

end JsonpySql
