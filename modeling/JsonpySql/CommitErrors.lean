/-
JsonpySql/CommitErrors.lean

When a commit raises.

The loop over the entries of a log stops at an entry whose collection is not
registered, and at nothing else (`applyEntries_returns_iff`); deduplication
keeps an entry for every buffered operation, so a commit that has a log to read
raises just where some buffered operation names such a collection.

The log file comes into being with the first operation.  A transaction in which
nothing was buffered has none, and its commit raises for want of the file
(`raisesForAReason_iff`); `rollback` unlinks the file with `missing_ok` and has
no such case.
-/
import JsonpySql.FailedCommit

namespace JsonpySql

open StorageEngine

variable {w w₀ : Database} {file : String} {ops : List WriteOp}

/-- The loop of a commit returns just where every entry names a registered
collection. -/
theorem applyEntries_returns_iff (env : Env) {entries : List WALEntry} (hw : Serving w) :
    (entries.forM applyEntry).value env w = .ok () ↔
      ∀ e ∈ entries, e.collection ∈ w.mem.keys := by
  induction entries generalizing w with
  | nil => exact ⟨fun _ e he => absurd he List.not_mem_nil, fun _ => rfl⟩
  | cons e entries ih =>
      show (applyEntry e >>= fun _ => entries.forM applyEntry).value env w = .ok () ↔ _
      rw [List.forall_mem_cons]
      rcases Decidable.em (e.collection ∈ w.mem.keys) with hc | hc
      -- the entry is applied, and the collections stay registered
      · obtain ⟨im, him⟩ := OrdDict.exists_get?_of_mem hc
        have hok := congrArg Outcome.result (run_applyEntry env e hw him)
        have hchanged := changed_applyEntry env e hw him
        rw [Prog.value_bind_ok hok, ih (hchanged.serving hc hw), hchanged.keys hc]
        exact (and_iff_right hc).symm
      · have herr := congrArg Outcome.result (run_applyEntry_of_notMem env e hc)
        rw [Prog.value_bind_error herr]
        exact iff_of_false (by simp) fun h => hc h.1

/-- The entries read back name the collections of the buffered operations. -/
theorem forall_dedup_collection {P : String → Prop} :
    (∀ e ∈ WAL.dedup (walEntries ops), P e.collection) ↔ ∀ op ∈ ops, P op.collection := by
  constructor
  · intro h op hop
    obtain ⟨e, he, htarget⟩ := exists_mem_dedup_walEntries hop
    have hcoll : e.collection = op.collection := congrArg Prod.fst htarget
    exact hcoll ▸ h e he
  · intro h e he
    obtain ⟨op, hop, rfl⟩ := mem_dedup_walEntries he
    rw [WriteOp.collection_entry]
    exact h op hop

/-- A commit that has a log to read returns just where every buffered operation
names a registered collection. -/
theorem commit_returns_iff (env : Env) (hw : Serving w)
    (hlog : w.disk.wal.get? file = some (logOf ops)) :
    (Transaction.commit file).value env w = .ok () ↔ ∀ op ∈ ops, op.collection ∈ w.mem.keys := by
  rw [Prog.value, run_commit env hlog,
    ← forall_dedup_collection (P := fun c => c ∈ w.mem.keys), ← applyEntries_returns_iff env hw]
  rcases hloop : ((WAL.dedup (walEntries ops)).forM applyEntry).value env w with e | _
  · have herr := Prog.value_bind_error (f := fun _ => (WAL.delete file : EngineM Unit)) hloop
    rw [Prog.value] at herr
    rw [herr]
  · exact iff_of_true (Prog.value_bind_ok hloop) rfl

/-- A commit that returned has removed its log. -/
theorem get?_wal_commit {env : Env} (hw : Serving w)
    (hlog : w.disk.wal.get? file = some (logOf ops))
    (hreg : ∀ op ∈ ops, op.collection ∈ w.mem.keys) :
    ((Transaction.commit file).exec env w).disk.wal.get? file = none := by
  obtain ⟨-, -, -, hwal, -⟩ := commit_simulation env (fun _ (_ : Unit) => True) (fun s _ => s)
    (s := ()) hw hlog hreg trivial (fun _ _ _ => trivial) (fun _ _ _ _ _ _ _ _ _ => trivial)
  rw [hwal, OrdDict.get?_erase, if_pos rfl]

/-- A commit raises just where some buffered operation names a collection that
is not registered, and otherwise returns and leaves no log. -/
def RaisesForAReason (env : Env) (w : Database) (file : String) (ops : List WriteOp) : Prop :=
  ((∃ e, (Transaction.commit file).value env w = .error e) ↔
      ∃ op ∈ ops, op.collection ∉ w.mem.keys) ∧
    ((∀ op ∈ ops, op.collection ∈ w.mem.keys) →
      (Transaction.commit file).value env w = .ok () ∧
        ((Transaction.commit file).exec env w).disk.wal.get? file = none)

theorem raisesForAReason_of_log {env : Env} (hw : Serving w)
    (hlog : w.disk.wal.get? file = some (logOf ops)) : RaisesForAReason env w file ops := by
  have hreturns := commit_returns_iff env hw hlog
  refine ⟨?_, fun hreg => ⟨hreturns.mpr hreg, get?_wal_commit hw hlog hreg⟩⟩
  rcases hv : (Transaction.commit file).value env w with e | _
  · rw [hv] at hreturns
    have hnot : ¬∀ op ∈ ops, op.collection ∈ w.mem.keys := fun h => by simpa using hreturns.mpr h
    refine iff_of_true ⟨e, rfl⟩ ?_
    simpa only [not_forall, exists_prop] using hnot
  · refine iff_of_false (by simp) ?_
    rintro ⟨op, hop, hc⟩
    exact hc (hreturns.mp hv op hop)

/-- **A commit fails only for a reason, unless nothing was buffered.**  The
transaction's log was new when the operations were buffered, and nothing but
the commit touches it afterwards. -/
theorem raisesForAReason_iff (env₀ env : Env) (hfresh : w₀.disk.wal.get? file = none)
    (hw : Serving w) (hlog : w.disk.wal.get? file =
      ((Transaction.bufferAll file ops).exec env₀ w₀).disk.wal.get? file) :
    RaisesForAReason env w file ops ↔ ops ≠ [] := by
  rw [(exec_bufferAll hfresh ops env₀).2.2] at hlog
  rcases eq_or_ne ops [] with rfl | hne
  -- there is no log to read
  · refine iff_of_false (fun h => ?_) fun h => h rfl
    obtain ⟨op, hop, -⟩ := h.1.mp ⟨_, congrArg Outcome.result (run_commit_of_missing env hlog)⟩
    exact absurd hop List.not_mem_nil
  · rw [if_neg hne] at hlog
    exact iff_of_true (raisesForAReason_of_log hw hlog) hne

/-- A commit of nothing raises. -/
theorem not_raisesForAReason_nil :
    let file := Transaction.walPath onlyClient
    ¬RaisesForAReason onlyClient ((Transaction.bufferAll file []).exec onlyClient usersDb) file
      [] := by
  intro file h
  have herr : (Transaction.commit file).value onlyClient
      ((Transaction.bufferAll file []).exec onlyClient usersDb) = .error (.walReplayError
        ("Cannot read WAL " ++ onlyClient.path file ++ ": " ++ onlyClient.noSuchFile file)) := rfl
  obtain ⟨op, hop, -⟩ := h.1.mp ⟨_, herr⟩
  exact absurd hop List.not_mem_nil

/-- A commit of one insert and one on a name that is not registered. -/
theorem raisesForAReason_nobody :
    let file := Transaction.walPath onlyClient
    let ops : List WriteOp :=
      [.insert "users" "u1" OrdDict.empty, .delete "nobody" "u1"]
    RaisesForAReason onlyClient ((Transaction.bufferAll file ops).exec onlyClient usersDb) file
      ops := by
  intro file ops
  have hw : Serving ((Transaction.bufferAll file ops).exec onlyClient usersDb) := usersDb_serving
  have hfresh : usersDb.disk.wal.get? file = none := rfl
  exact (raisesForAReason_iff onlyClient onlyClient hfresh hw rfl).mpr (List.cons_ne_nil _ _)

end JsonpySql
