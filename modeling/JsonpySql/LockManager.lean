/-
JsonpySql/LockManager.lean

File locks.  A lock is taken on an open file, so the file must be there; it is
asked for again and again until the timeout, so a call either gets it or
raises, and a call that raises has done nothing (`run_locked`).
-/
import JsonpySql.Disk

namespace JsonpySql

namespace LockManager

variable {σ α : Type}

/-- Open the file to lock. -/
def openFile (file : String) : StoreM σ Unit := do
  let env ← Prog.env
  let disk ← Prog.getDisk
  match disk.jsonl file with
  | none =>
      Prog.raise (.storageError
        ("Cannot open " ++ env.path file ++ " for locking: " ++ env.noSuchFile file))
  | some _ => pure ()

/-- A lock another client holds is in the way unless both are shared. -/
def blocked (env : Env) (file : String) (mode : LockMode) : Bool :=
  match env.held file, mode with
  | none, _ => false
  | some .shared, .shared => false
  | some _, _ => true

def timeoutError (env : Env) (mode : LockMode) : PyErr :=
  let kind := match mode with
    | .exclusive => "exclusive"
    | .shared => "shared"
  .lockTimeoutError
    ("Could not acquire " ++ kind ++ " lock within " ++ env.lockTimeout.repr ++ "s")

/-- Poll until the lock is granted or the timeout expires. -/
def acquire (file : String) (mode : LockMode) : StoreM σ Unit := do
  let env ← Prog.env
  if blocked env file mode then Prog.raise (timeoutError env mode) else pure ()

/-- Hold a lock for the duration of a block. -/
def locked (mode : LockMode) (file : String) (block : StoreM σ α) : StoreM σ α := do
  openFile file
  acquire file mode
  block

def shared (file : String) (block : StoreM σ α) : StoreM σ α := locked .shared file block

def exclusive (file : String) (block : StoreM σ α) : StoreM σ α := locked .exclusive file block

/-! ### Runs -/

variable {env : Env} {w : World σ Disk} {file : String} {mode : LockMode}

theorem run_openFile (h : (w.disk.jsonl file).isSome) :
    (openFile file : StoreM σ _).run env w = ⟨.ok (), w.mem, []⟩ := by
  obtain ⟨lines, hl⟩ := Option.isSome_iff_exists.mp h
  simp [openFile, Prog.run_bind, Prog.exec, Outcome.after, hl]

theorem run_acquire (h : blocked env file mode = false) :
    (acquire file mode : StoreM σ _).run env w = ⟨.ok (), w.mem, []⟩ := by
  simp [acquire, Prog.run_bind, Prog.exec, Outcome.after, h]

theorem run_acquire_of_blocked (h : blocked env file mode = true) :
    (acquire file mode : StoreM σ _).run env w = ⟨.error (timeoutError env mode), w.mem, []⟩ := by
  simp [acquire, Prog.run_bind, Prog.exec, Outcome.after, h]

/-- A block whose file is there and whose lock is free runs as it is. -/
theorem run_locked (hfile : (w.disk.jsonl file).isSome) (hfree : blocked env file mode = false)
    (block : StoreM σ α) : (locked mode file block).run env w = block.run env w := by
  rw [locked, Prog.run_bind_read (run_openFile hfile), Prog.run_bind_read (run_acquire hfree)]

theorem blocked_of_alone (h : env.Alone) (file : String) (mode : LockMode) :
    blocked env file mode = false := by
  simp [blocked, h file]

/-- No client holds a lock that could be had exclusively. -/
theorem free_of_exclusive (h : blocked env file .exclusive = false) (mode : LockMode) :
    blocked env file mode = false := by
  rcases hheld : env.held file with _ | held
  · simp [blocked, hheld]
  · simp [blocked, hheld] at h

/-- What is in the way of a reader is in the way of a writer. -/
theorem blocked_exclusive (h : blocked env file .shared = true) :
    blocked env file .exclusive = true := by
  by_contra hfree
  rw [free_of_exclusive (Bool.eq_false_iff.mpr hfree) .shared] at h
  cases h

/-- A block that does not get its lock raises, and nothing has happened. -/
theorem run_locked_of_blocked (hfile : (w.disk.jsonl file).isSome)
    (hheld : blocked env file mode = true) (block : StoreM σ α) :
    (locked mode file block).run env w = ⟨.error (timeoutError env mode), w.mem, []⟩ := by
  rw [locked, Prog.run_bind_read (run_openFile hfile),
    Prog.run_bind_error (run_acquire_of_blocked hheld)]

/-- A block that returned has had its lock. -/
theorem free_of_ok {block : StoreM σ α} {a : α} (hfile : (w.disk.jsonl file).isSome)
    (h : (locked mode file block).value env w = .ok a) : blocked env file mode = false := by
  rcases hheld : blocked env file mode with _ | _
  · rfl
  · rw [Prog.value, run_locked_of_blocked hfile hheld] at h
    cases h

/-- What a locked block returns depends on its file alone, where that of the
block does. -/
theorem value_locked_congr {w' : World σ Disk} {block : StoreM σ α}
    (hfile : w'.disk.jsonl file = w.disk.jsonl file)
    (hblock : ∀ lines, w.disk.jsonl file = some lines → w'.disk.jsonl file = some lines →
      block.value env w' = block.value env w) :
    (locked mode file block).value env w' = (locked mode file block).value env w := by
  rcases hl : w.disk.jsonl file with _ | lines
  · have hopen : ∀ v : World σ Disk, v.disk.jsonl file = none →
        (openFile file : StoreM σ Unit).value env v = .error (.storageError
          ("Cannot open " ++ env.path file ++ " for locking: " ++ env.noSuchFile file)) := by
      intro v h
      simp [openFile, Prog.value, Prog.run_bind, Prog.exec, h, Outcome.after]
    rw [locked, Prog.value_bind_error (hopen w' (hfile.trans hl)),
      Prog.value_bind_error (hopen w hl)]
  · have hsome : (w.disk.jsonl file).isSome := Option.isSome_iff_exists.mpr ⟨lines, hl⟩
    have hsome' : (w'.disk.jsonl file).isSome := hfile ▸ hsome
    rcases hheld : blocked env file mode with _ | _
    · rw [Prog.value, Prog.value, run_locked hsome hheld, run_locked hsome' hheld]
      exact hblock lines hl (hfile.trans hl)
    · rw [Prog.value, Prog.value, run_locked_of_blocked hsome hheld,
        run_locked_of_blocked hsome' hheld]

/-- A block that only reads only reads under a lock. -/
theorem readOnly_locked {block : StoreM σ α} (h : Prog.ReadOnly block) :
    Prog.ReadOnly (locked mode file block) := by
  refine Prog.ReadOnly.bind ?_ fun _ => Prog.ReadOnly.bind ?_ fun _ => h
  · refine Prog.readOnly_env.bind fun env => Prog.readOnly_getDisk.bind fun disk => ?_
    rcases disk.jsonl file with _ | lines
    · exact Prog.readOnly_raise _
    · exact Prog.readOnly_pure _
  · refine Prog.readOnly_env.bind fun env => ?_
    split
    · exact Prog.readOnly_raise _
    · exact Prog.readOnly_pure _

end LockManager

end JsonpySql
