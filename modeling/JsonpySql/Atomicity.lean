/-
JsonpySql/Atomicity.lean

What a crash leaves of a transaction.

Once `commit` has been called the log is complete, and every interrupted commit
or recovery leaves a directory from which the next one can go on
(`Interrupted`); so a commit that has started completes (`commit_completes`).

Before that the log holds the operations buffered so far, and nothing in it says
that more were to come.  Opening the directory replays them, so the database is
left with a part of the transaction; `allOrNothing_iff` says exactly when this
cannot be seen.
-/
import JsonpySql.Recovery

namespace JsonpySql

open StorageEngine

variable {reg : Catalog} {T T₀ : String → Table} {d : Disk} {env : Env} {w : Database}
  {file : String} {ops : List WriteOp}

/-! ### Interrupted commits -/

/-- The writes a complete log makes. -/
def logPuts (ops : List WriteOp) : List ((String × String) × Option Record) :=
  (WAL.dedup (walEntries ops)).map WALEntry.toPut

theorem run_logPuts (T : String → Table) (ops : List WriteOp) :
    store.run T (logPuts ops) = store.run T (ops.map WriteOp.toPut) := store_run_walEntries T ops

/-- Either the log is there and a replay would finish the transaction, or the
transaction is finished and the log is gone. -/
def Interrupted (reg : Catalog) (file : String) (ops : List WriteOp) (T₀ : String → Table)
    (d : Disk) : Prop :=
  (∃ T, Holds reg (oneLog file ops) T d ∧ store.Absorbs (logPuts ops) T₀ T) ∨
    Holds reg OrdDict.empty (store.run T₀ (logPuts ops)) d

theorem collection_mem_of_mem_log (hreg : ∀ op ∈ ops, op.collection ∈ reg.keys) :
    ∀ e ∈ WAL.dedup (walEntries ops), e.collection ∈ reg.keys := by
  intro e he
  obtain ⟨op, hop, rfl⟩ := mem_dedup_walEntries he
  rw [WriteOp.collection_entry]
  exact hreg op hop

/-- A partial replay is absorbed by the next one. -/
theorem Interrupted.of_replay {p : List WALEntry} (hp : p <+: WAL.dedup (walEntries ops))
    (hT : store.Absorbs (logPuts ops) T₀ T)
    (hd : Holds reg (oneLog file ops) (store.run T (p.map WALEntry.toPut)) d) :
    Interrupted reg file ops T₀ d :=
  Or.inl ⟨_, hd, hT.run_prefix store (hp.map WALEntry.toPut)⟩

/-- **A commit**, whole or interrupted, of operations on registered
collections. -/
theorem commit_turn (env : Env) (hne : ops ≠ []) (h : Open reg (oneLog file ops) w T)
    (hreg : ∀ op ∈ ops, op.collection ∈ reg.keys) :
    (Transaction.commit file).value env w = .ok () ∧
      Open reg OrdDict.empty ((Transaction.commit file).exec env w)
        (store.run T (ops.map WriteOp.toPut)) ∧
      ∀ k, Interrupted reg file ops T ((Transaction.commit file).crashAt env w k) := by
  have hlog : w.disk.wal.get? file = some (logOf ops) := by
    rw [h.holds.wal, get?_oneLog hne]
  have hrun := run_commit env hlog
  obtain ⟨hok, hopen, hcrash⟩ := loop_then_delete file
    (applyEntries_spec env (WAL.dedup (walEntries ops)) h (collection_mem_of_mem_log hreg))
  rw [erase_oneLog, foldl_entryTableStep] at hopen hcrash
  rw [Prog.value, Prog.exec]
  simp only [Prog.crashAt, hrun]
  refine ⟨hok, ?_, fun k => ?_⟩
  · rw [store_run_walEntries] at hopen
    exact hopen
  · rcases hcrash k with ⟨p, hp, hd⟩ | hd
    · rw [foldl_entryTableStep] at hd
      exact .of_replay hp (store.absorbs_refl _ _) hd
    · exact Or.inr hd

/-- A recovery, whole or interrupted, goes on with an interrupted commit. -/
theorem Interrupted.recover (env : Env) (h : Interrupted reg file ops T₀ d)
    (hreg : ∀ op ∈ ops, op.collection ∈ reg.keys) :
    init.value env ⟨OrdDict.empty, d⟩ = .ok () ∧
      Open reg OrdDict.empty (init.exec env ⟨OrdDict.empty, d⟩) (store.run T₀ (logPuts ops)) ∧
      ∀ k, Interrupted reg file ops T₀ (init.crashAt env ⟨OrdDict.empty, d⟩ k) := by
  have hentries := collection_mem_of_mem_log hreg
  rcases h with ⟨T, hd, hT⟩ | hd
  · -- the log is replayed
    obtain ⟨hok, hopen, hcrash⟩ := init_spec env file ops hd
    rw [foldl_replayStep hentries] at hopen hcrash
    have hfull : store.run T ((WAL.dedup (walEntries ops)).map WALEntry.toPut) =
        store.run T₀ (logPuts ops) := hT
    rw [hfull] at hopen hcrash
    refine ⟨hok, hopen, fun k => ?_⟩
    rcases hcrash k with ⟨p, hp, hd'⟩ | hd'
    · rw [foldl_replayStep fun e he => hentries e (hp.subset he)] at hd'
      exact .of_replay hp hT hd'
    · exact Or.inr hd'
  · -- there is no log any more
    obtain ⟨hok, hopen, hcrash⟩ := init_spec env file [] hd
    refine ⟨hok, hopen, fun k => Or.inr ?_⟩
    rcases hcrash k with ⟨p, hp, hd'⟩ | hd'
    · obtain rfl : p = [] := List.prefix_nil.mp hp
      exact hd'
    · exact hd'

/-- Recoveries that are all interrupted, one after another, each by a process
of its own. -/
def crashedRecoveries (crashes : List (Env × ℕ)) (d : Disk) : Disk :=
  crashes.foldl (fun d c => init.crashAt c.1 ⟨OrdDict.empty, d⟩ c.2) d

theorem Interrupted.crashedRecoveries (h : Interrupted reg file ops T₀ d)
    (hreg : ∀ op ∈ ops, op.collection ∈ reg.keys) (crashes : List (Env × ℕ)) :
    Interrupted reg file ops T₀ (JsonpySql.crashedRecoveries crashes d) := by
  induction crashes generalizing d with
  | nil => exact h
  | cons c crashes ih => exact ih ((h.recover c.1 hreg).2.2 c.2)

/-- The state after buffering. -/
theorem open_bufferAll (env : Env) (h : Consistent w) (hlogs : w.disk.wal = OrdDict.empty)
    (file : String)
    (ops : List WriteOp) :
    Open (catalog w.mem) (oneLog file ops) ((Transaction.bufferAll file ops).exec env w)
      (tables w.disk) := by
  have hopen := h.isOpen
  rw [hlogs] at hopen
  rw [Prog.exec, run_bufferAll]
  exact ⟨rfl, hopen.holds.bufferAll file ops⟩

/-- **A commit that has started completes.**  Stop a commit, and any number of
recoveries after it, anywhere; once a recovery runs to its end, every `get` and
`scan` answers as after an uninterrupted commit, and no log is left. -/
theorem commit_completes (file : String) (ops : List WriteOp) (k : ℕ)
    (crashes : List (Env × ℕ)) (henv : env.Alone) (hw : Consistent w)
    (hlogs : w.disk.wal = OrdDict.empty) (hne : ops ≠ [])
    (hreg : ∀ op ∈ ops, op.collection ∈ w.mem.keys) :
    let buffered := (Transaction.bufferAll file ops).exec env w
    let committed := (Transaction.commit file).exec env buffered
    let d := crashedRecoveries crashes ((Transaction.commit file).crashAt env buffered k)
    let recovered := init.exec env ⟨OrdDict.empty, d⟩
    (Transaction.commit file).value env buffered = .ok () ∧
      init.value env ⟨OrdDict.empty, d⟩ = .ok () ∧
      SameAnswers env committed recovered ∧ recovered.disk.wal = OrdDict.empty := by
  intro buffered committed d recovered
  have hreg' : ∀ op ∈ ops, op.collection ∈ (catalog w.mem).keys := fun op hop => by
    rw [keys_catalog]
    exact hreg op hop
  obtain ⟨hcok, hcommitted, hcrash⟩ :=
    commit_turn env hne (open_bufferAll env hw hlogs file ops) hreg'
  obtain ⟨hok, hrecovered, -⟩ :=
    ((hcrash k).crashedRecoveries hreg' crashes).recover env hreg'
  refine ⟨hcok, hok, ?_, hrecovered.holds.wal⟩
  apply sameAnswers_of_eq henv hcommitted.serving hrecovered.serving
    (hrecovered.keys.trans hcommitted.keys.symm)
  rw [hcommitted.holds.tables, hrecovered.holds.tables, run_logPuts]

theorem usersDb_consistent : Consistent usersDb := ⟨usersDb_serving, .inl rfl, by decide⟩

/-- The commit stops after the first line of three, the first recovery after
two more writes. -/
theorem commit_completes_users :
    let ops : List WriteOp :=
      [.insert "users" "1" (OrdDict.ofList [("email", .str "a")]),
        .insert "users" "2" OrdDict.empty, .delete "users" "3"]
    let buffered := (Transaction.bufferAll "a.wal" ops).exec onlyClient usersDb
    let d := crashedRecoveries [(onlyClient, 2)]
      ((Transaction.commit "a.wal").crashAt onlyClient buffered 1)
    let recovered := init.exec onlyClient ⟨OrdDict.empty, d⟩
    SameAnswers onlyClient ((Transaction.commit "a.wal").exec onlyClient buffered) recovered ∧
      recovered.disk.wal = OrdDict.empty := by
  intro ops buffered d recovered
  obtain ⟨-, -, hsame, hgone⟩ := commit_completes "a.wal" ops 1 [(onlyClient, 2)]
    onlyClient_alone usersDb_consistent rfl (by decide) (by decide)
  exact ⟨hsame, hgone⟩

/-! ### Parts of a transaction -/

/-- The live line of an id after a list of writes: what the last write to it
leaves, or what was there. -/
def lineAfter (T : String → Table) (ops : List WriteOp) (c i : String) : Option Record :=
  match (ops.filter fun op => op.target = (c, i)).getLast? with
  | some op => op.line.slot
  | none => (T c).liveRow i

theorem liveRow_put (T : String → Table) (target : String × String) (v : Option Record)
    (c i : String) : (store.put T target v c).liveRow i =
      if target = (c, i) then v else (T c).liveRow i := by
  obtain ⟨c', i'⟩ := target
  rw [store_put]
  rcases eq_or_ne c c' with rfl | hc
  · rw [Function.update_self, Table.liveRow_set]
    rcases eq_or_ne i i' with rfl | hi
    · rw [if_pos rfl, if_pos rfl]
    · rw [if_neg hi, if_neg (by simpa using Ne.symm hi)]
  · rw [Function.update_of_ne hc, if_neg (by simp [Ne.symm hc])]

theorem liveRow_run (T : String → Table) (ops : List WriteOp) (c i : String) :
    (store.run T (ops.map WriteOp.toPut) c).liveRow i = lineAfter T ops c i := by
  induction ops using List.reverseRecOn with
  | nil => rfl
  | append_singleton ops op ih =>
      rw [List.map_append, LastWins.run_append]
      show (store.put (store.run T (ops.map WriteOp.toPut)) op.target op.line.slot c).liveRow i = _
      rw [liveRow_put, ih, lineAfter, lineAfter, List.filter_append]
      rcases Decidable.em (op.target = (c, i)) with h | h
      · simp [h]
      · simp [h]

/-- A run of writes leaves the tables of other collections. -/
theorem run_toPut_of_notMem (T : String → Table) {ops : List WriteOp} {c : String}
    (h : ∀ op ∈ ops, op.collection ≠ c) : store.run T (ops.map WriteOp.toPut) c = T c := by
  have hnone : (ops.map WriteOp.toPut).filter (fun e => e.1.1 = c) = [] := by
    rw [List.filter_eq_nil_iff]
    intro e he
    obtain ⟨op, hop, rfl⟩ := List.mem_map.mp he
    rw [decide_eq_true_eq]
    exact h op hop
  rw [store, LastWins.pi_run_apply, hnone]
  rfl

/-- A run of writes keeps the order of the ids that were there. -/
theorem keys_prefix_run (T : String → Table) (ops : List WriteOp) (c : String) :
    (T c).keys <+: (store.run T (ops.map WriteOp.toPut) c).keys := by
  rw [store, LastWins.pi_run_apply, LastWins.dict_run]
  exact OrdDict.keys_prefix_assign _ _

theorem SameAnswers.symm {w' : Database} (h : SameAnswers env w w') : SameAnswers env w' w :=
  fun c => ⟨fun i => ((h c).1 i).symm, (h c).2.symm⟩

/-- Databases that answer alike have the same live lines. -/
theorem SameAnswers.liveRow {w' : Database} (h : SameAnswers env w w') (henv : env.Alone)
    (hw : Serving w) (hw' : Serving w') (hkeys : w'.mem.keys = w.mem.keys) {c : String}
    (hc : c ∈ w.mem.keys) (i : String) :
    (tables w.disk c).liveRow i = (tables w'.disk c).liveRow i := by
  obtain ⟨-, hrows⟩ := (sameAnswers_iff henv hw hw' hkeys).mp h c hc
  refine Option.ext fun r => ?_
  rw [Table.liveRow_eq_some_iff_rows (tables_wf _ _),
    Table.liveRow_eq_some_iff_rows (tables_wf _ _), hrows]

/-- **When writes cannot be seen.**  A database and the database after some
writes answer alike just if every document is left as it was; then also the
order of the rows is. -/
theorem sameAnswers_run_iff {w' : Database} (henv : env.Alone) (hw : Serving w)
    (hw' : Serving w') (hkeys : w'.mem.keys = w.mem.keys)
    (htables : tables w'.disk = store.run (tables w.disk) (ops.map WriteOp.toPut))
    (hreg : ∀ op ∈ ops, op.collection ∈ w.mem.keys) :
    SameAnswers env w w' ↔
      ∀ c i, lineAfter (tables w.disk) ops c i = (tables w.disk c).liveRow i := by
  constructor
  · intro h c i
    rw [← liveRow_run, ← htables]
    rcases Decidable.em (c ∈ w.mem.keys) with hc | hc
    · exact (h.liveRow henv hw hw' hkeys hc i).symm
    · rw [htables, run_toPut_of_notMem _ fun op hop (heq : op.collection = c) =>
        hc (heq ▸ hreg op hop)]
  · intro h
    rw [sameAnswers_iff henv hw hw' hkeys]
    intro c hc
    have hlive : ∀ i, (tables w'.disk c).liveRow i = (tables w.disk c).liveRow i := fun i => by
      rw [htables, liveRow_run, h]
    -- the ids the writes have added are dead, so no row is new
    refine ⟨fun i => ?_, ?_⟩
    · rw [Table.get_eq_map_liveRow, Table.get_eq_map_liveRow, hlive]
    · refine (Table.rows_of_keys_le ?_ hlive).symm
      rw [htables]
      exact keys_prefix_run _ ops c

/-- A transaction from its first operation to the end of its commit. -/
def Transaction.whole (file : String) (ops : List WriteOp) : EngineM Unit := do
  Transaction.bufferAll file ops
  Transaction.commit file

/-- Buffering fills a new log. -/
theorem logged_bufferAll {file : String} {d : Disk} (hfresh : d.wal.get? file = none)
    (ops : List WriteOp) :
    Logged (· = file) (Function.update (fun _ => []) file ops)
      (applyAll d (ops.map fun op => DiskWrite.appendWal file (.entry op.entry.viaJson))) := by
  induction ops using List.reverseRecOn with
  | nil =>
      rintro _ rfl
      simpa using hfresh
  | append_singleton ops op ih =>
      have hnext := ih.buffer rfl op
      rw [Function.update_self, Function.update_idem] at hnext
      rw [List.map_append, applyAll_append]
      exact hnext

/-- Nothing else changes. -/
theorem exec_bufferAll {file : String} (hfresh : w.disk.wal.get? file = none)
    (ops : List WriteOp) (env : Env) :
    let w' := (Transaction.bufferAll file ops).exec env w
    w'.mem = w.mem ∧ w'.disk.jsonl = w.disk.jsonl ∧
      w'.disk.wal.get? file = if ops = [] then none else some (logOf ops) := by
  intro w'
  have hw' : w' = ⟨w.mem, applyAll w.disk
      (ops.map fun op => DiskWrite.appendWal file (.entry op.entry.viaJson))⟩ := by
    show Prog.exec _ env w = _
    rw [Prog.exec, run_bufferAll]
  rw [hw']
  refine ⟨rfl, ?_, ?_⟩
  · apply applyAll_induction (P := fun d' : Disk => d'.jsonl = w.disk.jsonl) rfl
    intro dw hdw d' hd'
    obtain ⟨op, -, rfl⟩ := List.mem_map.mp hdw
    exact hd'
  · have hfile := logged_bufferAll hfresh ops file rfl
    rwa [Function.update_self] at hfile

/-- **Simulation of a transaction** with a new log: what one applied entry keeps
in step with an abstract state, the transaction keeps. -/
theorem whole_simulation {S : Type*} (env : Env) (R : Database → S → Prop)
    (step : S → WALEntry → S) {file : String} {ops : List WriteOp} {s : S} (hw : Serving w)
    (hfresh : w.disk.wal.get? file = none) (hne : ops ≠ [])
    (hreg : ∀ op ∈ ops, op.collection ∈ w.mem.keys) (h0 : R w s)
    (hframe : ∀ {w₁ w₂ s}, R w₁ s → w₂.mem = w₁.mem → w₂.disk.jsonl = w₁.disk.jsonl → R w₂ s)
    (hstep : ∀ op ∈ ops, ∀ w₁ w₂ s im, R w₁ s → w₁.mem.get? op.collection = some im →
      Changed w₁ w₂ op.collection (op.entry.viaJson.newTable (tables w₁.disk op.collection))
        (op.entry.viaJson.newIndexes (tables w₁.disk op.collection) im) →
      R w₂ (step s op.entry.viaJson)) :
    (Transaction.whole file ops).value env w = .ok () ∧
      Serving ((Transaction.whole file ops).exec env w) ∧
      ((Transaction.whole file ops).exec env w).mem.keys = w.mem.keys ∧
      R ((Transaction.whole file ops).exec env w)
        ((WAL.dedup (walEntries ops)).foldl step s) := by
  have hok : (Transaction.bufferAll file ops).value env w = .ok () :=
    congrArg Outcome.result (run_bufferAll file ops env w)
  obtain ⟨hmem, hjsonl, hlog⟩ := exec_bufferAll hfresh ops env
  rw [if_neg hne] at hlog
  have hserving : Serving ((Transaction.bufferAll file ops).exec env w) := by
    rw [Serving, hmem, hjsonl]
    exact hw
  obtain ⟨hcommit, hw', hkeys, -, hR⟩ := commit_simulation env R step hserving hlog
    (fun op hop => hmem ▸ hreg op hop) (hframe h0 hmem hjsonl) hframe hstep
  rw [Transaction.whole, Prog.value_bind_ok hok, Prog.exec_bind_ok hok]
  exact ⟨hcommit, hw', hkeys.trans (congrArg OrdDict.keys hmem), hR⟩

/-- A crash after `k` writes leaves the first `k` operations in the log, or a
commit that has started. -/
theorem crashAt_whole (env : Env) (file : String) (ops : List WriteOp) (k : ℕ)
    (hw : Consistent w) (hlogs : w.disk.wal = OrdDict.empty)
    (hreg : ∀ op ∈ ops, op.collection ∈ w.mem.keys) :
    (k ≤ ops.length ∧ Holds (catalog w.mem) (oneLog file (ops.take k)) (tables w.disk)
        ((Transaction.whole file ops).crashAt env w k)) ∨
      (ops.length < k ∧ Interrupted (catalog w.mem) file ops (tables w.disk)
        ((Transaction.whole file ops).crashAt env w k)) := by
  have hrun := run_bufferAll file ops env w
  have hok : (Transaction.bufferAll file ops).value env w = .ok () := congrArg Outcome.result hrun
  have hopen := hw.isOpen
  rw [hlogs] at hopen
  rw [Transaction.whole, Prog.crashAt_bind_ok hok, hrun, List.length_map]
  split
  · next hk =>
      refine Or.inl ⟨hk, ?_⟩
      rw [Prog.crashAt, hrun, ← List.map_take]
      exact hopen.holds.bufferAll file (ops.take k)
  · next hk =>
      refine Or.inr ⟨Nat.lt_of_not_le hk, ?_⟩
      have hbuffered := open_bufferAll env hw hlogs file ops
      rcases eq_or_ne ops [] with rfl | hne
      · -- an empty buffer has no log, and its commit raises
        refine Or.inr ?_
        have hmissing : ((Transaction.bufferAll file []).exec env w).disk.wal.get? file = none := by
          rw [hbuffered.holds.wal]
          rfl
        rw [Prog.crashAt, run_commit_of_missing env hmissing, List.take_nil]
        exact hopen.holds
      · refine (commit_turn env hne hbuffered ?_).2.2 _
        intro op hop
        rw [keys_catalog]
        exact hreg op hop

/-- Opening the directory after a crash applies the operations that have
reached the log. -/
theorem reopen_whole (env : Env) (file : String) (ops : List WriteOp) (k : ℕ)
    (hw : Consistent w) (hlogs : w.disk.wal = OrdDict.empty)
    (hreg : ∀ op ∈ ops, op.collection ∈ w.mem.keys) :
    let d := (Transaction.whole file ops).crashAt env w k
    init.value env ⟨OrdDict.empty, d⟩ = .ok () ∧
      Open (catalog w.mem) OrdDict.empty (init.exec env ⟨OrdDict.empty, d⟩)
        (store.run (tables w.disk) ((ops.take k).map WriteOp.toPut)) := by
  intro d
  have hreg' : ∀ op ∈ ops, op.collection ∈ (catalog w.mem).keys := fun op hop => by
    rw [keys_catalog]
    exact hreg op hop
  rcases crashAt_whole env file ops k hw hlogs hreg with ⟨-, hd⟩ | ⟨hk, hd⟩
  · obtain ⟨hok, hopen, -⟩ := init_spec env file (ops.take k) hd
    rw [foldl_replayStep (collection_mem_of_mem_log fun op hop =>
      hreg' op (List.mem_of_mem_take hop)), store_run_walEntries] at hopen
    exact ⟨hok, hopen⟩
  · obtain ⟨hok, hopen, -⟩ := hd.recover env hreg'
    rw [run_logPuts] at hopen
    rw [List.take_of_length_le (Nat.le_of_lt hk)]
    exact ⟨hok, hopen⟩

/-- What the reopened directory answers, against the state before the
transaction and the state after all of its operations. -/
theorem reopen_answers (file : String) (ops : List WriteOp) (k : ℕ) (henv : env.Alone)
    (hw : Consistent w) (hlogs : w.disk.wal = OrdDict.empty)
    (hreg : ∀ op ∈ ops, op.collection ∈ w.mem.keys) :
    let d := (Transaction.whole file ops).crashAt env w k
    let reopened := init.exec env ⟨OrdDict.empty, d⟩
    let after := (performAll (ops.map .write)).exec env w
    let T := tables w.disk
    (SameAnswers env w reopened ↔ ∀ c i, lineAfter T (ops.take k) c i = (T c).liveRow i) ∧
      (SameAnswers env after reopened ↔
        ∀ c i, lineAfter T ops c i = lineAfter T (ops.take k) c i) := by
  intro d reopened after T
  obtain ⟨-, hopen⟩ := reopen_whole env file ops k hw hlogs hreg
  have hkeys : reopened.mem.keys = w.mem.keys := hopen.keys.trans (keys_catalog w.mem)
  have hregops : ∀ op ∈ ops.map EngineOp.write, op.collection ∈ w.mem.keys := by
    intro op hop
    obtain ⟨op', hop', rfl⟩ := List.mem_map.mp hop
    exact hreg op' hop'
  obtain ⟨-, hserial, hskeys, hstables⟩ := performAll_tableStep henv hw.serving hregops
  rw [foldl_tableStep_write] at hstables
  refine ⟨sameAnswers_run_iff henv hw.serving hopen.serving hkeys hopen.holds.tables
    fun op hop => hreg op (List.mem_of_mem_take hop), ?_⟩
  -- the state after all operations is the reopened one, after the rest of them
  have hrest : tables after.disk =
      store.run (tables reopened.disk) ((ops.drop k).map WriteOp.toPut) := by
    rw [hopen.holds.tables, ← LastWins.run_append, ← List.map_append, List.take_append_drop]
    exact hstables
  have hafter := sameAnswers_run_iff henv hopen.serving hserial (hskeys.trans hkeys.symm) hrest
    fun op hop => hkeys ▸ hreg op (List.mem_of_mem_drop hop)
  have hlines : ∀ c i, lineAfter (tables reopened.disk) (ops.drop k) c i = lineAfter T ops c i := by
    intro c i
    rw [← liveRow_run, ← hrest, ← liveRow_run]
    exact congrArg (fun S : String → Table => (S c).liveRow i) hstables
  have hhave : ∀ c i, (tables reopened.disk c).liveRow i = lineAfter T (ops.take k) c i := by
    intro c i
    rw [← liveRow_run]
    exact congrArg (fun S : String → Table => (S c).liveRow i) hopen.holds.tables
  constructor
  · intro h c i
    rw [← hlines, ← hhave]
    exact hafter.mp h.symm c i
  · intro h
    refine (hafter.mpr fun c i => ?_).symm
    rw [hlines, hhave]
    exact h c i

/-- **When a crash leaves all or nothing.**  Stop a transaction after `k` writes
and open the directory: what it answers is what the state before answers, or
the state after all operations, just if all operations had reached the log, or
those that had leave every document as it was, or those that had not leave
every document as the others had left it. -/
theorem allOrNothing_iff (file : String) (ops : List WriteOp) (k : ℕ) (henv : env.Alone)
    (hw : Consistent w) (hlogs : w.disk.wal = OrdDict.empty)
    (hreg : ∀ op ∈ ops, op.collection ∈ w.mem.keys) :
    let d := (Transaction.whole file ops).crashAt env w k
    let reopened := init.exec env ⟨OrdDict.empty, d⟩
    let after := (performAll (ops.map .write)).exec env w
    let T := tables w.disk
    init.value env ⟨OrdDict.empty, d⟩ = .ok () ∧
    ((SameAnswers env w reopened ∨ SameAnswers env after reopened) ↔
      ops.length ≤ k ∨
      (∀ c i, lineAfter T (ops.take k) c i = (T c).liveRow i) ∨
      ∀ c i, lineAfter T ops c i = lineAfter T (ops.take k) c i) := by
  intro d reopened after T
  obtain ⟨hbefore, hafter⟩ := reopen_answers file ops k henv hw hlogs hreg
  refine ⟨(reopen_whole env file ops k hw hlogs hreg).1, ?_⟩
  rw [hbefore, hafter]
  constructor
  · exact Or.inr
  · rintro (hk | h)
    · rw [List.take_of_length_le hk]
      exact Or.inr fun _ _ => rfl
    · exact h

/-- Two inserts into two documents; the process stops after the first has been
buffered, before `commit` is called. -/
def twoInserts : List WriteOp :=
  [.insert "users" "1" OrdDict.empty, .insert "users" "2" OrdDict.empty]

/-- Opening the directory applies the first insert alone. -/
theorem not_allOrNothing :
    let d := (Transaction.whole "a.wal" twoInserts).crashAt onlyClient usersDb 1
    let reopened := init.exec onlyClient ⟨OrdDict.empty, d⟩
    let after := (performAll (twoInserts.map .write)).exec onlyClient usersDb
    ¬ (SameAnswers onlyClient usersDb reopened ∨ SameAnswers onlyClient after reopened) := by
  intro d reopened after h
  obtain ⟨hbefore, hafter⟩ := reopen_answers "a.wal" twoInserts 1 onlyClient_alone
    usersDb_consistent rfl (by decide)
  rcases h with h | h
  · have hline := hbefore.mp h "users" "1"
    exact absurd hline (by decide)
  · have hline := hafter.mp h "users" "2"
    exact absurd hline (by decide)

/-- Stopped one line later, the transaction is complete. -/
theorem allOrNothing_users :
    let d := (Transaction.whole "a.wal" twoInserts).crashAt onlyClient usersDb 2
    let reopened := init.exec onlyClient ⟨OrdDict.empty, d⟩
    let after := (performAll (twoInserts.map .write)).exec onlyClient usersDb
    SameAnswers onlyClient usersDb reopened ∨ SameAnswers onlyClient after reopened :=
  (allOrNothing_iff "a.wal" twoInserts 2 onlyClient_alone usersDb_consistent rfl
    (by decide)).2.mpr (Or.inl le_rfl)

end JsonpySql
