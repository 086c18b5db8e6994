/-
JsonpySql/LockedClients.lean

Clients that write to one collection, each under the exclusive lock.

The lock is that of the file a client has opened under the collection's path, and
a compaction puts a new file there inside its block.  Who opens the path from
then on gets the lock of the new file at once, while the compaction still runs,
or while a client that was waiting runs on the old file.  So no two clients are
ever inside together just if no client compacts next to another one
(`exclusion_iff`).
-/
import JsonpySql.Effects
import JsonpySql.FileLock

namespace JsonpySql

open StorageEngine FileLock

/-- The operations on one collection. -/
abbrev OpOn (c : String) := {op : EngineOp // op.collection = c}

variable {c : String}

/-- The block of the operation may put a new file under the collection's path. -/
def OpOn.Replaces (op : OpOn c) : Prop :=
  ∃ env w, Serving w ∧ c ∈ w.mem.keys ∧
    ∃ lines, DiskWrite.replaceJsonl (jsonlPath c) lines ∈ (op.1.perform.run env w).writes

/-- One empty collection of this name. -/
def emptyCollectionDb (c : String) : Database where
  mem := OrdDict.empty.set c (IndexManager.new c [])
  disk := { Disk.empty with jsonl := fun file => if file = jsonlPath c then some [] else none }

theorem emptyCollectionDb_serving (c : String) : Serving (emptyCollectionDb c) := by
  intro c' hc
  obtain rfl := List.mem_singleton.mp hc
  exact congrArg Option.isSome (if_pos rfl)

/-- **Only a compaction** replaces the file. -/
theorem OpOn.replaces_iff (op : OpOn c) : op.Replaces ↔ op.1 = .compact c := by
  constructor
  · rintro ⟨env, w, hw, hc, lines, hwrite⟩
    obtain ⟨im, him⟩ := OrdDict.exists_get?_of_mem hc
    obtain ⟨op | c', rfl⟩ := op
    · exfalso
      rcases hheld : LockManager.blocked env (jsonlPath op.collection) .exclusive with _ | _
      -- a write appends a line and saves the indexes
      · have hrun : (EngineOp.write op).perform.run env w = _ := run_direct op hw him hheld
        rw [hrun] at hwrite
        rcases List.mem_cons.mp hwrite with hline | hindex
        · cases hline
        · cases IndexManager.isIndex_saveWrites _ _ hindex
      · rw [run_perform_of_blocked (.write op) hw hc hheld] at hwrite
        cases hwrite
    · rfl
  · intro hop
    have him : (emptyCollectionDb c).mem.get? c = some (IndexManager.new c []) :=
      OrdDict.get?_set_self _ _ _
    have hrun := run_compact (emptyCollectionDb_serving c) him
      (LockManager.blocked_of_alone onlyClient_alone _ .exclusive)
    refine ⟨onlyClient, emptyCollectionDb c, emptyCollectionDb_serving c,
      OrdDict.mem_keys_of_get? him, DocumentStore.rows (tables (emptyCollectionDb c).disk c), ?_⟩
    rw [hop]
    show _ ∈ ((StorageEngine.compact c).run onlyClient (emptyCollectionDb c)).writes
    rw [hrun]
    exact List.mem_cons_self

variable {ι : Type*} [DecidableEq ι]

/-- **When the exclusive lock excludes.**  Any number of clients perform their
operations on one collection.  In every run whose locks are granted on the file
the path names, while no client inside has replaced it, at most one client is
inside at a time.  And no run gets past this just if, where a client compacts,
no other one has an operation to perform. -/
theorem exclusion_iff (programs : ι → List (OpOn c)) :
    (∀ s, ReachesCurrent OpOn.Replaces (State.start programs) s → s.Exclusive) ∧
      ((∀ s, Reaches OpOn.Replaces (State.start programs) s → s.Exclusive) ↔
        ∀ i, (∃ op ∈ programs i, op.1 = .compact c) → ∀ j, j ≠ i → programs j = []) := by
  refine ⟨fun s hrun => exclusive_of_current (guarded_start programs) hrun, ?_⟩
  rw [exclusive_iff]
  simp only [OpOn.replaces_iff]

/-- One client compacts and another one inserts. -/
def compactAndInsert : Fin 2 → List (OpOn "users")
  | 0 => [⟨.compact "users", rfl⟩]
  | 1 => [⟨.write (.insert "users" "1" OrdDict.empty), rfl⟩]

/-- The insert is inside its block while the compaction still is. -/
theorem exclusion_broken : ∃ s,
    Reaches OpOn.Replaces (State.start compactAndInsert) s ∧ ¬s.Exclusive := by
  have hcompact : (⟨.compact "users", rfl⟩ : OpOn "users") ∈ compactAndInsert 0 :=
    List.mem_cons_self
  have hinsert : compactAndInsert 1 ≠ [] := List.cons_ne_nil _ _
  obtain ⟨s, hrun, h0, h1⟩ :=
    exists_both_inside (by decide) hcompact ((OpOn.replaces_iff _).mpr rfl) hinsert
  exact ⟨s, hrun, fun h => absurd (h 0 1 h0 h1) (by decide)⟩

/-- Any number of clients that insert exclude each other. -/
theorem exclusion_users :
    ∀ s, Reaches OpOn.Replaces (State.start fun i : ℕ =>
      [(⟨.write (.insert "users" (toString i) OrdDict.empty), rfl⟩ : OpOn "users")]) s →
      s.Exclusive := by
  refine (exclusion_iff _).2.mpr ?_
  rintro i ⟨op, hop, hcompact⟩
  obtain rfl := List.mem_singleton.mp hop
  cases hcompact

end JsonpySql
