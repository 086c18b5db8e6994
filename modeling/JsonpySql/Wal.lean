/-
JsonpySql/Wal.lean

The write-ahead log of one transaction: a `.wal` file with one line for each
buffered operation.  Reading it deduplicates: the last entry for a document
counts, at the place of the first (`dedup`).
-/
import Mathlib.Data.List.Sort
import JsonpySql.DocumentStore

namespace JsonpySql

namespace WALEntry

/-- The entry as it is read back from its line. -/
def viaJson (e : WALEntry) : WALEntry := { e with document := e.document.map Doc.viaJson }

/-- The document an entry names. -/
def target (e : WALEntry) : String × String := (e.collection, e.docId)

@[simp] theorem target_viaJson (e : WALEntry) : e.viaJson.target = e.target := rfl

@[simp] theorem viaJson_viaJson (e : WALEntry) : e.viaJson.viaJson = e.viaJson := by
  rcases e with ⟨op, c, i, _ | d⟩ <;> simp [viaJson]

end WALEntry

namespace WAL

variable {σ : Type}

/-- Append one operation. -/
def append (file : String) (entry : WALEntry) : StoreM σ Unit :=
  Prog.writeAll [.appendWal file (.entry entry.viaJson)]

/-- What decoding a line raises, if its bytes are no UTF-8. -/
def decodeError : WalLine → Option PyErr
  | .undecodable msg => some (.unicodeDecodeError msg)
  | _ => none

/-- The loop of `read_entries`: later entries for a document overwrite. -/
def parseLines (path : String) : List WalLine → ℕ → OrdDict (String × String) WALEntry →
    Except PyErr (OrdDict (String × String) WALEntry)
  | [], _, entriesMap => .ok entriesMap
  -- the first such line ends the reading, whatever stands after it
  | .corrupt msg :: _, lineno, _ =>
      .error (.walReplayError ("Corrupt WAL entry at line " ++ toString lineno ++ " in " ++ path ++
        ": " ++ msg))
  -- `from_dict` subscripts what is no object, and only the `KeyError` is caught
  | .foreign msg :: _, _, _ => .error (.typeError msg)
  | .undecodable msg :: _, _, _ => .error (.unicodeDecodeError msg)
  | .entry e :: lines, lineno, entriesMap =>
      parseLines path lines (lineno + 1) (entriesMap.set e.target e)

/-- Read and deduplicate all entries. -/
def readEntries (file : String) : StoreM σ (List WALEntry) := do
  let env ← Prog.env
  let disk ← Prog.getDisk
  match disk.wal.get? file with
  | none =>
      Prog.raise (.walReplayError
        ("Cannot read WAL " ++ env.path file ++ ": " ++ env.noSuchFile file))
  | some lines =>
      -- the text is decoded before its lines are parsed
      match lines.findSome? decodeError with
      | some e => Prog.raise e
      | none =>
          match parseLines (env.path file) lines 1 OrdDict.empty with
          | .error e => Prog.raise e
          | .ok entriesMap => pure entriesMap.values

/-- Delete the file. -/
def delete (file : String) : StoreM σ Unit := Prog.writeAll [.unlinkWal file]

/-- The names of all `.wal` files, as the directory lists them. -/
def findWalFiles (env : Env) (disk : Disk) : List String :=
  disk.wal.keys.insertionSort fun file file' => env.listedBefore file file' = true

/-! ### Deduplication -/

/-- The entries `read_entries` returns for a log: for every document the last
entry, in the order of the first ones. -/
def dedup (entries : List WALEntry) : List WALEntry :=
  (OrdDict.ofList (entries.map fun e => (e.target, e))).values

theorem parseLines_entries (path : String) (entries : List WALEntry) (lineno : ℕ)
    (m : OrdDict (String × String) WALEntry) :
    parseLines path (entries.map .entry) lineno m =
      .ok (m.assign (entries.map fun e => (e.target, e))) := by
  induction entries generalizing lineno m with
  | nil => rfl
  | cons e entries ih => simp [parseLines, ih]

variable {env : Env} {w : World σ Disk} {file : String}

theorem findSome?_decodeError_entries (entries : List WALEntry) :
    (entries.map WalLine.entry).findSome? decodeError = none := by
  rw [List.findSome?_eq_none_iff]
  intro line hline
  obtain ⟨e, -, rfl⟩ := List.mem_map.mp hline
  rfl

/-- Reading lines that are all text. -/
theorem run_readEntries_of_text {lines : List WalLine} (h : w.disk.wal.get? file = some lines)
    (htext : lines.findSome? decodeError = none) :
    (readEntries file : StoreM σ _).run env w =
      (match parseLines (env.path file) lines 1 OrdDict.empty with
      | .error e => (Prog.raise e : StoreM σ _)
      | .ok entriesMap => pure entriesMap.values).run env w := by
  simp [readEntries, Prog.run_bind, Prog.exec, Outcome.after, h, htext]

/-- Reading lines of which one is no text. -/
theorem run_readEntries_of_decodeError {lines : List WalLine} {e : PyErr}
    (h : w.disk.wal.get? file = some lines) (he : lines.findSome? decodeError = some e) :
    (readEntries file : StoreM σ _).run env w = ⟨.error e, w.mem, []⟩ := by
  simp [readEntries, Prog.run_bind, Prog.exec, Outcome.after, h, he]

theorem run_readEntries {entries : List WALEntry}
    (h : w.disk.wal.get? file = some (entries.map .entry)) :
    (readEntries file : StoreM σ _).run env w = ⟨.ok (dedup entries), w.mem, []⟩ := by
  rw [run_readEntries_of_text h (findSome?_decodeError_entries entries), parseLines_entries]
  rfl

theorem run_readEntries_of_missing (h : w.disk.wal.get? file = none) :
    (readEntries file : StoreM σ _).run env w =
      ⟨.error (.walReplayError
        ("Cannot read WAL " ++ env.path file ++ ": " ++ env.noSuchFile file)), w.mem, []⟩ := by
  simp [readEntries, Prog.run_bind, Prog.exec, Outcome.after, h]

theorem readOnly_readEntries (file : String) :
    Prog.ReadOnly (readEntries file : StoreM σ _) := by
  refine Prog.readOnly_env.bind fun env => Prog.readOnly_getDisk.bind fun disk => ?_
  rcases disk.wal.get? file with _ | lines
  · exact Prog.readOnly_raise _
  · show Prog.ReadOnly (match lines.findSome? decodeError with
      | some e => (Prog.raise e : StoreM σ _)
      | none =>
          match parseLines (env.path file) lines 1 OrdDict.empty with
          | .error e => Prog.raise e
          | .ok entriesMap => pure entriesMap.values)
    rcases lines.findSome? decodeError with _ | e
    · dsimp only
      rcases parseLines (env.path file) lines 1 OrdDict.empty with e | entriesMap
      · exact Prog.readOnly_raise _
      · exact Prog.readOnly_pure _
    · exact Prog.readOnly_raise _

/-- Every entry of the deduplicated log stands in the log. -/
theorem mem_of_mem_dedup {entries : List WALEntry} {e : WALEntry} (h : e ∈ dedup entries) :
    e ∈ entries := by
  induction entries using List.reverseRecOn generalizing e with
  | nil => simp [dedup, OrdDict.ofList, OrdDict.values, OrdDict.empty] at h
  | append_singleton entries e' ih =>
      simp only [dedup, OrdDict.ofList, List.map_append, List.map_singleton,
        OrdDict.assign_concat, OrdDict.values, List.mem_map] at h
      obtain ⟨⟨k, v⟩, hmem, rfl⟩ := h
      rw [OrdDict.mem_entries_iff, OrdDict.get?_set] at hmem
      -- the last entry, or one that another entry has not replaced
      split at hmem
      · simp [(Option.some.inj hmem).symm]
      · have hv : v ∈ dedup entries :=
          List.mem_map.mpr ⟨(k, v), OrdDict.mem_entries_iff.mpr hmem, rfl⟩
        simp [ih hv]

/-- The dictionary of entries keeps every entry under its own target. -/
theorem fst_eq_target (entries : List WALEntry) :
    ∀ p ∈ (OrdDict.ofList (entries.map fun e => (e.target, e))).entries, p.1 = p.2.target := by
  induction entries using List.reverseRecOn with
  | nil =>
      intro p hp
      simp [OrdDict.ofList, OrdDict.empty] at hp
  | append_singleton entries e ih =>
      rintro ⟨k, v⟩ hp
      rw [List.map_append, List.map_singleton, OrdDict.ofList, OrdDict.assign_concat,
        OrdDict.mem_entries_iff, OrdDict.get?_set] at hp
      split at hp
      · next hk => simp [hk, (Option.some.inj hp).symm]
      · exact ih (k, v) (OrdDict.mem_entries_iff.mpr hp)

/-- A function of entries sees the deduplicated log as the deduplication of its
values. -/
theorem map_dedup {β : Type*} (f : WALEntry → β) (entries : List WALEntry) :
    (dedup entries).map (fun e => (e.target, f e)) =
      (OrdDict.ofList (entries.map fun e => (e.target, f e))).entries := by
  have hmap : (OrdDict.ofList (entries.map fun e => (e.target, e))).mapValues f =
      OrdDict.ofList (entries.map fun e => (e.target, f e)) := by
    rw [OrdDict.mapValues_ofList, List.map_map]
    rfl
  rw [← hmap, dedup, OrdDict.values, List.map_map]
  refine List.map_congr_left fun p hp => ?_
  rw [fst_eq_target entries p hp]
  rfl

/-- Of the entries for a document the last one is left. -/
theorem filter_dedup (entries : List WALEntry) (target : String × String) :
    (dedup entries).filter (fun e => e.target = target) =
      ((entries.filter fun e => e.target = target).getLast?).toList := by
  set m := OrdDict.ofList (entries.map fun e => (e.target, e)) with hm
  have hkeys : ∀ p ∈ m.entries, p.1 = p.2.target := fst_eq_target entries
  have hone := filter_fst_eq target m.nodup
  show (m.entries.map Prod.snd).filter (fun e => e.target = target) = _
  have hfilter : m.entries.filter ((fun e : WALEntry => decide (e.target = target)) ∘ Prod.snd) =
      m.entries.filter fun p => p.1 = target :=
    List.filter_congr fun p hp => by rw [Function.comp_apply, hkeys p hp]
  rw [List.filter_map, hfilter, hone, ← OrdDict.get?_ofList_map WALEntry.target entries target]
  show (((m.get? target).map fun v => (target, v)).toList).map Prod.snd = (m.get? target).toList
  cases m.get? target <;> rfl

/-- Up to their order, the last entries for the documents are left. -/
theorem dedup_perm_latestBy (entries : List WALEntry) :
    (dedup entries).Perm (latestBy WALEntry.target entries) := by
  have hnodup : ((dedup entries).map WALEntry.target).Nodup := by
    have hkeys := congrArg (List.map Prod.fst) (map_dedup id entries)
    rw [List.map_map] at hkeys
    exact hkeys ▸ (OrdDict.ofList (entries.map fun e => (e.target, id e))).nodup
  refine (List.perm_ext_iff_of_nodup hnodup.of_map (nodup_map_latestBy entries).of_map).mpr
    fun e => ?_
  rw [mem_latestBy, ← Option.mem_toList, ← filter_dedup, List.mem_filter]
  simp

/-- Every document named in the log is named in the deduplicated log. -/
theorem target_mem_dedup {entries : List WALEntry} {e : WALEntry} (h : e ∈ entries) :
    e.target ∈ (dedup entries).map WALEntry.target := by
  have hkeys := congrArg (List.map Prod.fst) (map_dedup id entries)
  rw [List.map_map] at hkeys
  have hmem : e.target ∈ (OrdDict.ofList (entries.map fun e => (e.target, id e))).keys := by
    rw [OrdDict.mem_keys_ofList, List.map_map]
    exact List.mem_map.mpr ⟨e, h, rfl⟩
  exact hkeys ▸ hmem

end WAL

end JsonpySql
