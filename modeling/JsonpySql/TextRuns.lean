/-
JsonpySql/TextRuns.lean

Every run of the library on bytes.

`Disk.Written` says what a directory holds that only clients have written to, and
the writes of every operation keep it (`emits_*`), down to the replay of a log.
So a directory of bytes holds the directory of records in every state of every
run, crashes included (`life_readsAs`): whatever the library reads of a file at
any time is what the record has for it.
-/
import JsonpySql.EmittedWrites
import JsonpySql.FileText
import JsonpySql.Reopening

namespace JsonpySql

open PyJson StorageEngine WriteKind

/-! ### The kind of writes -/

/-- The directory holds what clients write: payloads, rows and logs of entries. -/
structure Disk.Written (K : LineKind) (d : Disk) : Prop where
  manifest : ∀ content, d.manifest = some content → ∃ data, content = .payload data
  idx : ∀ file content, d.idx file = some content →
    ∃ fields unique data, content = .payload fields unique data
  ridx : ∀ file content, d.ridx file = some content → ∃ data, content = .payload data
  jsonl : ∀ file lines, d.jsonl file = some lines → ∀ r ∈ lines, K.row r
  wal : ∀ file lines, d.wal.get? file = some lines →
    ∃ entries : List WALEntry, lines = entries.map .entry ∧ ∀ e ∈ entries, K.entry e

variable {K : LineKind}

theorem Disk.written_empty : Disk.empty.Written K :=
  ⟨fun _ h => (by cases h), fun _ _ h => (by cases h), fun _ _ h => (by cases h),
    fun _ _ h => (by cases h), fun _ _ h => (by cases h)⟩

/-- A file that is replaced or removed. -/
theorem forall_update {β : Type*} {P : β → Prop} {f : String → Option β}
    (h : ∀ file b, f file = some b → P b) {file : String} {v : Option β}
    (hv : ∀ b, v = some b → P b) : ∀ file' b, Function.update f file v file' = some b → P b := by
  intro file' b hb
  by_cases hf : file' = file
  · subst hf
    rw [Function.update_self] at hb
    exact hv b hb
  · rw [Function.update_of_ne hf] at hb
    exact h file' b hb

theorem Disk.written_write {d : Disk} {x : DiskWrite} (hd : d.Written K) (hx : x.Written K) :
    (d.write x).Written K := by
  cases x with
  | touchJsonl file =>
      refine { hd with jsonl := forall_update hd.jsonl ?_ }
      rintro _ ⟨⟩
      simp
  | appendJsonl file line =>
      refine { hd with jsonl := forall_update hd.jsonl ?_ }
      rintro _ ⟨⟩ r hr
      rcases List.mem_append.mp hr with hr | hr
      · rcases hl : d.jsonl file with _ | lines
        · simp [hl] at hr
        · exact hd.jsonl file lines hl r (by simpa [hl] using hr)
      · rw [List.mem_singleton.mp hr]
        exact hx
  | replaceJsonl file lines =>
      refine { hd with jsonl := forall_update hd.jsonl ?_ }
      rintro _ ⟨⟩
      exact hx
  | unlinkJsonl file =>
      exact { hd with jsonl := forall_update hd.jsonl fun _ h => by cases h }
  | replaceIdx file content =>
      refine { hd with idx := forall_update hd.idx ?_ }
      rintro _ ⟨⟩
      exact hx
  | unlinkIdx file => exact { hd with idx := forall_update hd.idx fun _ h => by cases h }
  | replaceRidx file content =>
      refine { hd with ridx := forall_update hd.ridx ?_ }
      rintro _ ⟨⟩
      exact hx
  | unlinkRidx file => exact { hd with ridx := forall_update hd.ridx fun _ h => by cases h }
  | replaceManifest content =>
      refine { hd with manifest := ?_ }
      rintro _ ⟨⟩
      exact hx
  | appendWal file line =>
      obtain ⟨e, rfl, he⟩ := hx
      refine { hd with wal := fun file' lines hl => ?_ }
      change (d.wal.set file _).get? file' = some lines at hl
      rw [OrdDict.get?_set] at hl
      split at hl
      · obtain rfl := Option.some.inj hl
        rcases hw : d.wal.get? file with _ | ls
        · refine ⟨[e.viaJson], rfl, ?_⟩
          simpa using K.viaJson he
        · obtain ⟨entries, rfl, hentries⟩ := hd.wal file ls hw
          refine ⟨entries ++ [e.viaJson], by simp, fun e' he' => ?_⟩
          rcases List.mem_append.mp he' with he' | he'
          · exact hentries e' he'
          · exact List.mem_singleton.mp he' ▸ K.viaJson he
      · exact hd.wal file' lines hl
  | unlinkWal file =>
      refine { hd with wal := fun file' lines hl => ?_ }
      change (d.wal.erase file).get? file' = some lines at hl
      rw [OrdDict.get?_erase] at hl
      split at hl
      · cases hl
      · exact hd.wal file' lines hl

/-- The write does not make, replace or remove a document file of the given
names; it may append to it. -/
def DiskWrite.Spares (files : Set String) : DiskWrite → Prop
  | .touchJsonl file | .replaceJsonl file _ | .unlinkJsonl file => file ∉ files
  | _ => True

/-- What the library writes while some document files only grow. -/
def written (K : LineKind) (files : Set String) : WriteKind Disk where
  disk := Disk.Written K
  write x := x.Written K ∧ x.Spares files
  keeps _ _ hd hx := Disk.written_write hd hx.1

/-! ### Stores, logs and indexes -/

section Stores

variable {σ : Type} {files : Set String}

theorem emits_iterLines (file : String) :
    (written K files).Emits (DocumentStore.iterLines file : StoreM σ _)
      fun ls => ∀ r ∈ ls, K.row r := by
  refine emits_bind (emits_readOnly Prog.readOnly_env) fun env _ =>
    emits_bind emits_getDisk fun disk hdisk => ?_
  rcases hl : disk.jsonl file with _ | lines
  · exact emits_raise _
  · exact emits_pure (hdisk.jsonl file lines hl)

/-- The rows of a table are among its lines. -/
theorem mem_lines_of_mem_rows {lines : List Record} {r : Record}
    (h : r ∈ DocumentStore.rows (DocumentStore.table lines)) : r ∈ lines := by
  obtain ⟨docId, hrow⟩ := Table.mem_rows.mp h
  rw [Table.liveRow_eq_some_iff] at hrow
  induction lines using List.reverseRecOn with
  | nil => cases hrow
  | append_singleton lines r' ih =>
      rw [DocumentStore.table_concat] at hrow
      rcases hr : r'.docId with _ | i
      · have hsame : (DocumentStore.table lines).get? docId = some (some r) := by
          simpa [DocumentStore.scanStep, hr] using hrow
        exact List.mem_append_left _ (ih (Table.mem_rows.mpr ⟨docId, by
          rw [Table.liveRow_eq_some_iff, hsame]⟩) hsame)
      · rw [DocumentStore.scanStep_of_docId hr, OrdDict.get?_set] at hrow
        split at hrow
        · obtain ⟨rfl, -⟩ := Record.slot_eq_some_iff.mp (Option.some.inj hrow)
          simp
        · exact List.mem_append_left _ (ih (Table.mem_rows.mpr ⟨docId, by
            rw [Table.liveRow_eq_some_iff, hrow]⟩) hrow)

theorem emits_scan (file : String) :
    (written K files).Emits (DocumentStore.scan file : StoreM σ _) fun rs => ∀ r ∈ rs, K.row r := by
  refine emits_bind (emits_iterLines file) fun lines hlines => emits_pure fun r hr => ?_
  exact hlines r (mem_lines_of_mem_rows hr)

theorem emits_append {docId : String} {document : Doc} (h : K.row (Record.ofDoc docId document))
    (file : String) :
    (written K files).Emits (DocumentStore.append file docId document : StoreM σ _) fun _ => True :=
  emits_writeAll fun x hx => by
    rw [List.mem_singleton.mp hx]
    exact ⟨h, trivial⟩

theorem emits_tombstone (file docId : String) :
    (written K files).Emits (DocumentStore.tombstone file docId : StoreM σ _) fun _ => True :=
  emits_writeAll fun x hx => by
    rw [List.mem_singleton.mp hx]
    exact ⟨K.tombstone docId, trivial⟩

theorem emits_compactStore {rows : List Record} (h : ∀ r ∈ rows, K.row r) {file : String}
    (hfile : file ∉ files) :
    (written K files).Emits (DocumentStore.compact file rows : StoreM σ _) fun _ => True :=
  emits_writeAll fun x hx => by
    rw [List.mem_singleton.mp hx]
    exact ⟨h, hfile⟩

theorem emits_walAppend {e : WALEntry} (h : K.entry e) (file : String) :
    (written K files).Emits (WAL.append file e : StoreM σ _) fun _ => True :=
  emits_writeAll fun x hx => by
    rw [List.mem_singleton.mp hx]
    exact ⟨⟨e, rfl, h⟩, trivial⟩

theorem emits_walDelete (file : String) :
    (written K files).Emits (WAL.delete file : StoreM σ _) fun _ => True :=
  emits_writeAll fun x hx => by
    rw [List.mem_singleton.mp hx]
    exact ⟨trivial, trivial⟩

theorem emits_readEntries (file : String) :
    (written K files).Emits (WAL.readEntries file : StoreM σ _) fun es => ∀ e ∈ es, K.entry e := by
  refine emits_bind (emits_readOnly Prog.readOnly_env) fun env _ =>
    emits_bind emits_getDisk fun disk hdisk => ?_
  rcases hl : disk.wal.get? file with _ | lines
  · exact emits_raise _
  · obtain ⟨entries, rfl, hentries⟩ := hdisk.wal file lines hl
    simp only [WAL.findSome?_decodeError_entries, WAL.parseLines_entries]
    exact emits_pure fun e he => hentries e (WAL.mem_of_mem_dedup he)

theorem written_saveWrites (im : IndexManager) :
    ∀ x ∈ im.saveWrites, (written K files).write x := by
  intro x hx
  simp only [IndexManager.saveWrites, List.mem_append, List.mem_map, List.mem_singleton] at hx
  rcases hx with ⟨e, -, rfl⟩ | rfl
  · exact ⟨⟨_, _, _, rfl⟩, trivial⟩
  · exact ⟨⟨_, rfl⟩, trivial⟩

theorem written_unlinkWrites (im : IndexManager) :
    ∀ x ∈ im.unlinkWrites, (written K files).write x := by
  intro x hx
  simp only [IndexManager.unlinkWrites, List.mem_append, List.mem_map, List.mem_singleton] at hx
  rcases hx with ⟨e, -, rfl⟩ | rfl <;> exact ⟨trivial, trivial⟩

theorem emits_save : (written K files).Emits IndexManager.save fun _ => True :=
  emits_bind (emits_readOnly Prog.readOnly_getMem) fun im _ =>
    emits_writeAll (written_saveWrites im)

/-- Change the indexes and save them. -/
theorem emits_modify_save (f : IndexManager → IndexManager) :
    (written K files).Emits (do Prog.modifyMem f; IndexManager.save) fun _ => True :=
  emits_bind (emits_modifyMem f) fun _ _ => emits_save

end Stores

/-! ### The engine -/

section Engine

variable {α : Type} {Q : α → Prop} {files : Set String}

theorem readOnly_openFile (file : String) :
    Prog.ReadOnly (LockManager.openFile file : EngineM Unit) := by
  refine Prog.readOnly_env.bind fun env => Prog.readOnly_getDisk.bind fun disk => ?_
  rcases disk.jsonl file with _ | lines
  · exact Prog.readOnly_raise _
  · exact Prog.readOnly_pure _

theorem readOnly_acquire (file : String) (mode : LockMode) :
    Prog.ReadOnly (LockManager.acquire file mode : EngineM Unit) := by
  refine Prog.readOnly_env.bind fun env => ?_
  split
  · exact Prog.readOnly_raise _
  · exact Prog.readOnly_pure _

theorem emits_locked {block : EngineM α} (h : (written K files).Emits block Q) (mode : LockMode)
    (file : String) : (written K files).Emits (LockManager.locked mode file block) Q := by
  exact emits_bind (emits_readOnly (readOnly_openFile file)) fun _ _ =>
    emits_bind (emits_readOnly (readOnly_acquire file mode)) fun _ _ => h

theorem emits_indexes {p : StoreM IndexManager α} (h : (written K files).Emits p Q) (c : String) :
    (written K files).Emits (indexes c p) Q :=
  emits_focus h

theorem emits_require (c : String) : (written K files).Emits (require c) fun _ => True :=
  emits_readOnly (readOnly_require c)

theorem emits_saveManifest : (written K files).Emits saveManifest fun _ => True :=
  emits_bind (emits_readOnly Prog.readOnly_getMem) fun registry _ => emits_writeAll fun x hx => by
    rw [List.mem_singleton.mp hx]
    exact ⟨⟨_, rfl⟩, trivial⟩

theorem emits_direct {op : WriteOp} (h : K.row op.line) :
    (written K files).Emits op.direct fun _ => True := by
  cases op with
  | insert c i d =>
      refine emits_bind (emits_require c) fun _ _ => emits_locked ?_ _ _
      exact emits_bind (emits_append h _) fun _ _ => emits_indexes (emits_modify_save _) c
  | update c i d =>
      refine emits_bind (emits_require c) fun _ _ => emits_locked ?_ _ _
      refine emits_bind (emits_readOnly (DocumentStore.readOnly_get _ _)) fun old _ => ?_
      exact emits_bind (emits_append h _) fun _ _ => emits_indexes (emits_modify_save _) c
  | delete c i =>
      refine emits_bind (emits_require c) fun _ _ => emits_locked ?_ _ _
      refine emits_bind (emits_readOnly (DocumentStore.readOnly_get _ _)) fun old _ => ?_
      exact emits_bind (emits_tombstone _ _) fun _ _ => emits_indexes (emits_modify_save _) c

theorem emits_compact {c : String} (hc : jsonlPath c ∉ files) :
    (written K files).Emits (compact c) fun _ => True := by
  refine emits_bind (emits_require c) fun _ _ => emits_locked ?_ _ _
  refine emits_bind (emits_scan _) fun live hlive => ?_
  exact emits_bind (emits_compactStore hlive hc) fun _ _ => emits_indexes (emits_modify_save _) c

theorem emits_dropCollection {name : String} (hname : jsonlPath name ∉ files) :
    (written K files).Emits (dropCollection name) fun _ => True := by
  refine emits_bind (emits_require name) fun _ _ => ?_
  refine emits_bind (emits_writeAll fun x hx => ?_) fun _ _ => ?_
  · rw [List.mem_singleton.mp hx]
    exact ⟨trivial, hname⟩
  · refine emits_bind (emits_indexes (Q := fun _ => True) ?_ name) fun _ _ => ?_
    · exact emits_bind (emits_readOnly Prog.readOnly_getMem) fun im _ =>
        emits_writeAll (written_unlinkWrites im)
    · exact emits_bind (emits_modifyMem _) fun _ _ => emits_saveManifest

theorem emits_registerNew {name : String} (hname : jsonlPath name ∉ files)
    (specs : List IndexSpec) :
    (written K files).Emits (registerNew name specs) fun _ => True := by
  refine emits_bind (Q := fun _ => True) ?_ fun _ _ => ?_
  · refine emits_bind (emits_readOnly Prog.readOnly_env) fun env _ =>
      emits_bind (emits_readOnly Prog.readOnly_getDisk) fun disk _ => ?_
    rcases disk.jsonl (jsonlPath name) with _ | lines
    · exact emits_writeAll fun x hx => by
        rw [List.mem_singleton.mp hx]
        exact ⟨trivial, hname⟩
    · exact emits_raise _
  · exact emits_bind (emits_writeAll (written_saveWrites _)) fun _ _ =>
      emits_bind (emits_modifyMem _) fun _ _ => emits_saveManifest

theorem emits_createCollection {name : String} (hname : jsonlPath name ∉ files)
    (specs : List IndexSpec) (dropIfExists : Bool) :
    (written K files).Emits (createCollection name specs dropIfExists) fun _ => True := by
  refine emits_bind (emits_readOnly Prog.readOnly_getMem) fun registry _ => ?_
  split
  · split
    · exact emits_bind (emits_dropCollection hname) fun _ _ => emits_registerNew hname specs
    · exact emits_raise _
  · exact emits_registerNew hname specs

theorem emits_applyEntry {e : WALEntry} (h : K.entry e) :
    (written K files).Emits (applyEntry e) fun _ => True := by
  have hdoc := K.applied h
  refine emits_bind (emits_require _) fun _ _ => ?_
  rcases hop : e.op with _ | _ | _ <;> dsimp only
  · exact emits_bind (emits_append hdoc _) fun _ _ =>
      emits_indexes (emits_modify_save _) _
  · refine emits_bind (emits_readOnly (DocumentStore.readOnly_get _ _)) fun old _ => ?_
    exact emits_bind (emits_append hdoc _) fun _ _ => emits_indexes (emits_modify_save _) _
  · refine emits_bind (emits_readOnly (DocumentStore.readOnly_get _ _)) fun old _ => ?_
    exact emits_bind (emits_tombstone _ _) fun _ _ => emits_indexes (emits_modify_save _) _

theorem emits_commit (file : String) :
    (written K files).Emits (Transaction.commit file) fun _ => True :=
  emits_bind (emits_readEntries file) fun _ hentries =>
    emits_bind (emits_forM fun e he => emits_applyEntry (hentries e he)) fun _ _ =>
      emits_walDelete file

theorem emits_loadCollection (name : String) (specs : List IndexSpec) :
    (written K files).Emits (loadCollection name specs) fun _ => True := by
  refine emits_bind (emits_readOnly Prog.readOnly_env) fun env _ =>
    emits_bind (emits_readOnly Prog.readOnly_getDisk) fun disk _ => ?_
  rcases (IndexManager.new name specs).loadFrom env disk with e | im
  · exact emits_raise _
  · dsimp only
    split
    · refine emits_bind (emits_readOnly (DocumentStore.readOnly_scan _)) fun live _ => ?_
      exact emits_bind (emits_writeAll (written_saveWrites _)) fun _ _ => emits_modifyMem _
    · exact emits_modifyMem _

theorem emits_recoverFile (file : String) :
    (written K files).Emits (recoverFile file) fun _ => True := by
  refine emits_bind (Q := fun es => ∀ l ∈ es, ∀ e ∈ l, K.entry e) ?_ fun es hes => ?_
  · refine emits_tryCatch ?_ fun e => ?_
    · refine emits_bind (emits_readEntries file) fun _ hentries => emits_pure ?_
      rintro _ ⟨⟩
      exact hentries
    · cases e with
      | walReplayError msg => exact emits_pure (by simp)
      | _ => exact emits_raise _
  · cases es with
    | none => exact emits_walDelete file
    | some entries =>
        refine emits_bind (emits_forM fun e he => ?_) fun _ _ => emits_walDelete file
        refine emits_tryCatch (emits_applyEntry (hes entries rfl e he)) fun err => ?_
        split
        · exact emits_pure trivial
        · exact emits_raise _

theorem emits_init : (written K files).Emits StorageEngine.init fun _ => True := by
  refine emits_bind (Q := fun _ => True) ?_ fun _ _ => ?_
  · refine emits_bind (emits_readOnly Prog.readOnly_getDisk) fun disk _ => ?_
    rcases disk.manifest with _ | ⟨data⟩ | msg | msg
    · exact emits_pure trivial
    · exact emits_forM fun e _ => emits_loadCollection e.1 e.2
    · exact emits_raise _
    · exact emits_raise _
  · exact emits_bind (emits_readOnly Prog.readOnly_env) fun env _ =>
      emits_bind (emits_readOnly Prog.readOnly_getDisk) fun disk _ =>
        emits_forM fun file _ => emits_recoverFile file

/-! ### Calls -/

/-- The line of a call is of a kind: the row of a direct write, the entry of a
buffered one. -/
def Call.Writes (K : LineKind) : Call → Prop
  | .event (.engine (.write op)) => K.row op.line
  | .event (.buffer _ op) => K.entry op.entry
  | _ => True

/-- The collections whose document files a call may make, replace or remove. -/
def Call.Spares (files : Set String) : Call → Prop
  | .createCollection c _ _ | .dropCollection c | .event (.engine (.compact c)) =>
      jsonlPath c ∉ files
  | _ => True

theorem emits_perform {call : Call} (h : call.Writes K) (hs : call.Spares files) :
    (written K files).Emits call.perform fun _ => True := by
  cases call with
  | createCollection name specs dropIfExists => exact emits_createCollection hs specs dropIfExists
  | dropCollection name => exact emits_dropCollection hs
  | addReverse c parentId childId => exact emits_indexes (emits_modify_save _) c
  | removeReverse c parentId childId => exact emits_indexes (emits_modify_save _) c
  | event e =>
      cases e with
      | engine op =>
          cases op with
          | write op => exact emits_direct h
          | compact c => exact emits_compact hs
      | begin => exact emits_bind (emits_readOnly Prog.readOnly_env) fun _ _ => emits_pure trivial
      | buffer file op => exact emits_walAppend h file
      | commit file => exact emits_commit file
      | rollback file => exact emits_walDelete file

end Engine

/-! ### Documents that are written -/

/-- The document of a write has distinct keys. -/
def WriteOp.Keyed (op : WriteOp) : Prop := ∀ d ∈ op.document, Doc.Keyed d

instance (op : WriteOp) : Decidable op.Keyed :=
  inferInstanceAs (Decidable (∀ d ∈ op.document, Doc.Keyed d))

theorem WriteOp.keyed_entry {op : WriteOp} (h : op.Keyed) : op.entry.Keyed :=
  WALEntry.keyed_iff.mpr (by cases op <;> exact h)

theorem WriteOp.keyed_line {op : WriteOp} (h : op.Keyed) : op.line.Keyed := by
  cases op with
  | insert c i d => exact Record.keyed_ofDoc (h d rfl) i
  | update c i d => exact Record.keyed_ofDoc (h d rfl) i
  | delete c i => exact Record.keyed_tombstone i

/-- The documents of a call have distinct keys. -/
def Call.Keyed : Call → Prop
  | .event (.engine (.write op)) => op.Keyed
  | .event (.buffer _ op) => op.Keyed
  | _ => True

instance : (call : Call) → Decidable call.Keyed
  | .event (.engine (.write op)) => inferInstanceAs (Decidable op.Keyed)
  | .event (.buffer _ op) => inferInstanceAs (Decidable op.Keyed)
  | .event (.engine (.compact _)) | .event .begin | .event (.commit _) | .event (.rollback _) =>
      .isTrue trivial
  | .createCollection .. | .dropCollection _ | .addReverse .. | .removeReverse .. => .isTrue trivial

theorem Call.Keyed.writes {call : Call} (h : call.Keyed) : call.Writes .keyed := by
  rcases call with _ | _ | (⟨_ | _⟩ | _ | _ | _ | _) | _ | _ <;>
    first | exact trivial | exact WriteOp.keyed_line h | exact WriteOp.keyed_entry h

/-- `json.dumps` returns for the document of a direct write, with its `_id`, and for
the entry of a buffered one. -/
def Call.Dumps (lim : Limits) : Call → Prop
  | .event (.engine (.write op)) => ∀ d ∈ op.document,
      refused lim lim.depth (.dict (d.set "_id" (.str op.docId)).entries) = none
  | .event (.buffer _ op) => refused lim lim.depth op.entry.toDict = none
  | _ => True

instance (lim : Limits) : (call : Call) → Decidable (call.Dumps lim)
  | .event (.engine (.write op)) => inferInstanceAs (Decidable (∀ d ∈ op.document, _ = _))
  | .event (.buffer _ _) => inferInstanceAs (Decidable (_ = _))
  | .event (.engine (.compact _)) | .event .begin | .event (.commit _) | .event (.rollback _) =>
      .isTrue trivial
  | .createCollection .. | .dropCollection _ | .addReverse .. | .removeReverse .. => .isTrue trivial

/-- What `json.dumps` has returned a line for is such a line. -/
theorem WriteOp.within_line {lim : Limits} (hdepth : 0 < lim.depth) {op : WriteOp}
    (hkeyed : op.Keyed) (h : ∀ d ∈ op.document,
      refused lim lim.depth (.dict (d.set "_id" (.str op.docId)).entries) = none) :
    (LineKind.within lim hdepth).row op.line := by
  have hvia : ∀ i (d : Doc), refused lim lim.depth (.dict (d.set "_id" (.str i)).entries) = none →
      refused lim lim.depth (.dict (Record.ofDoc i d).doc.entries) = none := by
    intro i d hd
    have hvia := refused_viaJson _ hd
    rw [viaJson_dict] at hvia
    exact hvia
  refine ⟨WriteOp.keyed_line hkeyed, ?_⟩
  cases op with
  | insert c i d => exact hvia i d (h d rfl)
  | update c i d => exact hvia i d (h d rfl)
  | delete c i => exact ((LineKind.within lim hdepth).tombstone i).2

theorem Call.writes_within {lim : Limits} (hdepth : 0 < lim.depth) {call : Call}
    (hkeyed : call.Keyed) (h : call.Dumps lim) : call.Writes (.within lim hdepth) := by
  rcases call with _ | _ | (⟨_ | _⟩ | _ | _ | _ | _) | _ | _ <;>
    first
    | exact trivial
    | exact WriteOp.within_line hdepth hkeyed h
    | exact ⟨WriteOp.keyed_entry hkeyed, h⟩

/-- `json.dumps` returns the texts that a write puts into its file. -/
def DiskWrite.Dumped (lim : Limits) : DiskWrite → Prop
  | .appendJsonl _ line => encode .compact lim (.dict line.doc.entries) = .ok line.text
  | .replaceJsonl _ lines =>
      ∀ r ∈ lines, encode .compact lim (.dict r.doc.entries) = .ok r.text
  | .replaceIdx _ content => encode .compact lim content.val = .ok content.text
  | .replaceRidx _ content => encode .compact lim content.val = .ok content.text
  | .replaceManifest content => encode (.indented 2) lim content.val = .ok content.text
  | .appendWal _ line => ∀ e, line = .entry e → encode .compact lim e.toDict = .ok e.text
  | _ => True

theorem refused_idsVal {lim : Limits} (left : ℕ) (ids : List String) :
    refused lim (left + 1) (idsVal ids) = none := by
  refine refused_list.mpr fun x hx => ?_
  obtain ⟨i, -, rfl⟩ := List.mem_map.mp hx
  rfl

theorem refused_idsDict {lim : Limits} (left : ℕ) (data : OrdDict String (List String)) :
    refused lim (left + 2) (idsDict data) = none := by
  refine refused_dict.mpr fun e he => ?_
  obtain ⟨e, -, rfl⟩ := List.mem_map.mp he
  exact refused_idsVal left e.2

theorem refused_manifest {lim : Limits} (left : ℕ) (data : OrdDict String (List IndexSpec)) :
    refused lim (left + 4) (ManifestFile.payload data).val = none := by
  refine refused_dict.mpr fun e he => ?_
  obtain ⟨e, -, rfl⟩ := List.mem_map.mp he
  refine refused_list.mpr fun x hx => ?_
  obtain ⟨spec, -, rfl⟩ := List.mem_map.mp hx
  refine refused_dict.mpr ?_
  simp [refused_idsVal]

/-- **Every text the library writes is one that `json.dumps` returns**, where four
containers may be within each other. -/
theorem DiskWrite.Written.dumped {lim : Limits} (hdepth : 4 ≤ lim.depth) {x : DiskWrite}
    (h : x.Written (.within lim (by omega))) : x.Dumped lim := by
  obtain ⟨left, hleft⟩ := Nat.exists_eq_add_of_le' hdepth
  have hwithin : ∀ {L v}, refused lim lim.depth v = none → encode L lim v = .ok (dumps L v) :=
    fun hv => encode_eq_ok_iff.mpr ⟨hv, rfl⟩
  cases x with
  | appendJsonl file line => exact hwithin h.2
  | replaceJsonl file lines => exact fun r hr => hwithin (h r hr).2
  | replaceIdx file content =>
      obtain ⟨fields, unique, data, rfl⟩ := h
      apply hwithin
      rw [hleft]
      refine refused_dict.mpr ?_
      simp [refused_idsVal, refused_idsDict]
  | replaceRidx file content =>
      obtain ⟨data, rfl⟩ := h
      apply hwithin
      rw [hleft]
      exact refused_idsDict _ data
  | replaceManifest content =>
      obtain ⟨data, rfl⟩ := h
      apply hwithin
      rw [hleft]
      exact refused_manifest left data
  | appendWal file line =>
      obtain ⟨e, rfl, hkeyed, hentry⟩ := h
      rintro _ ⟨⟩
      rw [WALEntry.text, ← WALEntry.viaJson_toDict]
      exact hwithin (refused_viaJson _ hentry)
  | touchJsonl file | unlinkJsonl file | unlinkIdx file | unlinkRidx file | unlinkWal file =>
      exact trivial

/-! ### Lives -/

/-- The memories of any number of clients, and the directory they share, as
records and as bytes. -/
structure Shared (ι : Type*) where
  mem : ι → Registry
  disk : Disk
  bytes : TextDisk

/-- One step in the life of a directory: a call of a client, or an opening with
an empty memory, either of them run to its end or stopped after some of its
writes. -/
structure LifeStep (ι : Type*) where
  client : ι
  env : Env
  call : Option Call
  crash : Option ℕ

namespace LifeStep

variable {ι : Type*} {files : Set String}

/-- The documents of the step have distinct keys. -/
def Keyed (step : LifeStep ι) : Prop := ∀ call ∈ step.call, call.Keyed

instance (step : LifeStep ι) : Decidable step.Keyed :=
  inferInstanceAs (Decidable (∀ call ∈ step.call, call.Keyed))

/-- `json.dumps` returns for what the step appends. -/
def Dumps (lim : Limits) (step : LifeStep ι) : Prop := ∀ call ∈ step.call, call.Dumps lim

instance (lim : Limits) (step : LifeStep ι) : Decidable (step.Dumps lim) :=
  inferInstanceAs (Decidable (∀ call ∈ step.call, call.Dumps lim))

/-- The lines of the step are of a kind. -/
def Writes (K : LineKind) (step : LifeStep ι) : Prop := ∀ call ∈ step.call, call.Writes K

/-- The step makes, replaces and removes none of the given document files. -/
def Spares (files : Set String) (step : LifeStep ι) : Prop :=
  ∀ call ∈ step.call, call.Spares files

/-- How the program of the step runs. -/
def outcome (step : LifeStep ι) (s : Shared ι) : Outcome PyErr Registry DiskWrite Unit :=
  match step.call with
  | some call => call.perform.run step.env ⟨s.mem step.client, s.disk⟩
  | none => StorageEngine.init.run step.env ⟨OrdDict.empty, s.disk⟩

/-- The writes of the step. -/
def writes (step : LifeStep ι) (s : Shared ι) : List DiskWrite :=
  match step.crash with
  | none => (step.outcome s).writes
  | some k => (step.outcome s).writes.take k

/-- The memory of the client after the step: a crash leaves none. -/
def memory (step : LifeStep ι) (s : Shared ι) : Registry :=
  match step.crash with
  | none => (step.outcome s).mem
  | some _ => OrdDict.empty

/-- One step on the records and, with the same writes, on the bytes. -/
def play [DecidableEq ι] (s : Shared ι) (step : LifeStep ι) : Shared ι where
  mem := Function.update s.mem step.client (step.memory s)
  disk := applyAll s.disk (step.writes s)
  bytes := applyAll s.bytes (step.writes s)

theorem spares_empty (step : LifeStep ι) : step.Spares ∅ := by
  intro call _
  cases call with
  | event e => rcases e with (_ | _) | _ | _ | _ | _ <;> simp [Call.Spares]
  | _ => simp [Call.Spares]

theorem written_writes {step : LifeStep ι} (h : step.Writes K) (hs : step.Spares files)
    {s : Shared ι} (hw : s.disk.Written K) : ∀ x ∈ step.writes s, (written K files).write x := by
  have hall : ∀ x ∈ (step.outcome s).writes, (written K files).write x := by
    unfold outcome
    rcases hc : step.call with _ | call
    · exact (emits_init step.env ⟨OrdDict.empty, s.disk⟩ hw).1
    · exact (emits_perform (h call hc) (hs call hc) step.env ⟨s.mem step.client, s.disk⟩ hw).1
  unfold writes
  rcases step.crash with _ | k
  · exact hall
  · exact fun x hx => hall x (List.mem_of_mem_take hx)

end LifeStep

/-- The bytes before any call. -/
def TextDisk.empty : TextDisk := ⟨none, fun _ => none, fun _ => none, fun _ => none, OrdDict.empty⟩

/-- Clients before any call. -/
def Shared.empty (ι : Type*) : Shared ι := ⟨fun _ => OrdDict.empty, Disk.empty, TextDisk.empty⟩

theorem TextDisk.holds_empty : TextDisk.empty.Holds Disk.empty where
  manifest := .none
  jsonl _ := .none
  idx _ := .none
  ridx _ := .none
  wal_keys := rfl
  wal _ := .none

/-- What the library reads of the bytes is what the records have. -/
structure TextDisk.ReadsAs (td : TextDisk) (d : Disk) : Prop where
  manifest : td.manifest.map (readAll ManifestFile.ofText) = d.manifest.map some
  jsonl : ∀ file path,
    (td.jsonl file).map (DocumentStore.readText path) = (d.jsonl file).map .ok
  idx : ∀ file, (td.idx file).map (readAll IdxFile.ofText) = (d.idx file).map some
  ridx : ∀ file, (td.ridx file).map (readAll RidxFile.ofText) = (d.ridx file).map some
  wal_keys : td.wal.keys = d.wal.keys
  wal : ∀ file path (entries : List WALEntry), d.wal.get? file = some (entries.map .entry) →
    (td.wal.get? file).map (WAL.readText path) = some (.ok (WAL.dedup entries))

theorem map_eq_of_rel {α β γ : Type*} {R : α → β → Prop} {f : α → γ} {g : β → γ}
    (h : ∀ a b, R a b → f a = g b) {a : Option α} {b : Option β} (hab : Option.Rel R a b) :
    a.map f = b.map g := by
  cases hab with
  | none => rfl
  | some hab => simp [h _ _ hab]

theorem TextDisk.Holds.readsAs {td : TextDisk} {d : Disk} (h : td.Holds d) : td.ReadsAs d where
  manifest := map_eq_of_rel (fun _ _ h => h) h.manifest
  jsonl file path := map_eq_of_rel (fun _ _ h => h.readText path) (h.jsonl file)
  idx file := map_eq_of_rel (fun _ _ h => h) (h.idx file)
  ridx file := map_eq_of_rel (fun _ _ h => h) (h.ridx file)
  wal_keys := h.wal_keys
  wal file path entries hentries := by
    have hrel := h.wal file
    rw [hentries] at hrel
    have hread : (td.wal.get? file).map (WAL.readText path) =
        (some (entries.map WalLine.entry)).map fun lines =>
          ((WAL.parseLines path lines 1 OrdDict.empty).map OrdDict.values).mapError .raised :=
      map_eq_of_rel (fun _ _ h => h.readText_wal path) hrel
    rw [hread, Option.map_some, WAL.parseLines_entries]
    rfl

section Lives

variable {ι : Type*} [DecidableEq ι]

theorem life_written {steps : List (LifeStep ι)} (hsteps : ∀ step ∈ steps, step.Writes K)
    {s : Shared ι} (hk : s.disk.Written K) : (steps.foldl LifeStep.play s).disk.Written K := by
  induction steps generalizing s with
  | nil => exact hk
  | cons step steps ih =>
      have hw := LifeStep.written_writes (hsteps step List.mem_cons_self) step.spares_empty hk
      exact ih (fun st hst => hsteps st (List.mem_cons_of_mem _ hst))
        ((written K ∅).disk_applyAll hk hw)

theorem life_holds {steps : List (LifeStep ι)} (hsteps : ∀ step ∈ steps, step.Writes K)
    {s : Shared ι} (hk : s.disk.Written K) (hs : s.bytes.Holds s.disk) :
    (steps.foldl LifeStep.play s).bytes.Holds (steps.foldl LifeStep.play s).disk := by
  induction steps generalizing s with
  | nil => exact hs
  | cons step steps ih =>
      have hw := LifeStep.written_writes (hsteps step List.mem_cons_self) step.spares_empty hk
      exact ih (fun st hst => hsteps st (List.mem_cons_of_mem _ hst))
        ((written K ∅).disk_applyAll hk hw) (TextDisk.holds_applyAll (fun x hx => (hw x hx).1) hs)

/-- **Bytes hold the records.**  After any calls and openings of any clients on
an empty directory, each of them complete or stopped after some of its writes, where
`json.dumps` returns for every document that is stored or buffered: it has returned
all that was written, the directory holds payloads, rows and logs of entries, and
whatever is read of a file is what the records have for it. -/
theorem life_readsAs {lim : Limits} (hdepth : 4 ≤ lim.depth) {steps : List (LifeStep ι)}
    (hsteps : ∀ step ∈ steps, step.Keyed ∧ step.Dumps lim) :
    let s := steps.foldl LifeStep.play (Shared.empty ι)
    (∀ before step after, steps = before ++ step :: after →
        ∀ x ∈ step.writes (before.foldl LifeStep.play (Shared.empty ι)), x.Dumped lim) ∧
      s.disk.Written (.within lim (by omega)) ∧ s.bytes.ReadsAs s.disk := by
  have hwrites : ∀ step ∈ steps, step.Writes (.within lim (by omega)) :=
    fun step hstep call hcall =>
      Call.writes_within _ ((hsteps step hstep).1 call hcall) ((hsteps step hstep).2 call hcall)
  refine ⟨?_, life_written hwrites Disk.written_empty,
    (life_holds hwrites Disk.written_empty TextDisk.holds_empty).readsAs⟩
  rintro before step after rfl x hx
  have hbefore : (before.foldl LifeStep.play (Shared.empty ι)).disk.Written
      (.within lim (by omega)) :=
    life_written (fun step hstep => hwrites step (List.mem_append_left _ hstep))
      Disk.written_empty
  have hstep := LifeStep.written_writes (hwrites step (by simp)) step.spares_empty hbefore
  exact (hstep x hx).1.dumped hdepth

/-- One client makes a collection and inserts a row. -/
def firstClient : List (LifeStep (Fin 2)) :=
  [⟨0, onlyClient, some (.createCollection "users" [⟨["name"], false⟩] false), none⟩,
    ⟨0, onlyClient, some (.event (.engine (.write
      (.insert "users" "1" (OrdDict.ofList [("name", .str "Ada")]))))), none⟩]

/-- Another one opens the directory, buffers an update and is stopped. -/
def secondClient : List (LifeStep (Fin 2)) :=
  [⟨1, onlyClient, none, none⟩,
    ⟨1, onlyClient, some (.event (.buffer "t.wal"
      (.update "users" "1" (OrdDict.ofList [("name", .str "Eve")])))), none⟩,
    ⟨1, onlyClient, some (.event (.commit "t.wal")), some 2⟩]

theorem twoClients_readsAs :
    ((firstClient ++ secondClient).foldl LifeStep.play (Shared.empty (Fin 2))).bytes.ReadsAs
      ((firstClient ++ secondClient).foldl LifeStep.play (Shared.empty (Fin 2))).disk :=
  (@life_readsAs (Fin 2) _ ⟨4300, 900⟩ (by decide) _ (by decide)).2.2

/-! ### Document files grow -/

/-- The file is there, and has grown by some rows. -/
def Grown (file : String) (bytes : List UInt8) (td : TextDisk) : Prop :=
  ∃ rows, td.jsonl file = some (bytes ++ rowBytes rows)

theorem Grown.write {file : String} {bytes : List UInt8} {td : TextDisk}
    (h : Grown file bytes td) {x : DiskWrite} (hx : x.Spares {file}) :
    Grown file bytes (td.write x) := by
  obtain ⟨rows, hrows⟩ := h
  have hne : ∀ file', file' ∉ ({file} : Set String) → file ≠ file' :=
    fun file' h heq => h heq.symm
  cases x with
  | appendJsonl file' line =>
      by_cases hf : file = file'
      · subst hf
        refine ⟨rows ++ [line], ?_⟩
        have hline : utf8 (lineText line.text) = rowBytes [line] := by simp [rowBytes]
        simp [TextDisk.write, hrows, hline, rowBytes_append]
      · exact ⟨rows, (Function.update_of_ne hf _ _).trans hrows⟩
  | touchJsonl file' => exact ⟨rows, (Function.update_of_ne (hne file' hx) _ _).trans hrows⟩
  | replaceJsonl file' _ => exact ⟨rows, (Function.update_of_ne (hne file' hx) _ _).trans hrows⟩
  | unlinkJsonl file' => exact ⟨rows, (Function.update_of_ne (hne file' hx) _ _).trans hrows⟩
  | _ => exact ⟨rows, hrows⟩

theorem life_grown {c : String} {bytes : List UInt8} {steps : List (LifeStep ι)}
    (hsteps : ∀ step ∈ steps, step.Writes K ∧ step.Spares {jsonlPath c}) {s : Shared ι}
    (hk : s.disk.Written K) (hs : Grown (jsonlPath c) bytes s.bytes) :
    Grown (jsonlPath c) bytes (steps.foldl LifeStep.play s).bytes := by
  induction steps generalizing s with
  | nil => exact hs
  | cons step steps ih =>
      obtain ⟨hwrites, hspares⟩ := hsteps step List.mem_cons_self
      have hw := LifeStep.written_writes hwrites hspares hk
      exact ih (fun st hst => hsteps st (List.mem_cons_of_mem _ hst))
        ((written K {jsonlPath c}).disk_applyAll hk hw)
        (applyAll_induction hs fun x hx td htd => htd.write (hw x hx).2)

/-- **Document files only grow.**  As long as a collection is neither created,
dropped nor compacted, whatever else is called, completed, crashed or replayed,
its file is what it was with the lines of some rows behind it. -/
theorem life_appends {c : String} {steps later : List (LifeStep ι)}
    (hsteps : ∀ step ∈ steps, step.Keyed)
    (hlater : ∀ step ∈ later, step.Keyed ∧ step.Spares {jsonlPath c}) {bytes : List UInt8}
    (hbytes : (steps.foldl LifeStep.play (Shared.empty ι)).bytes.jsonl (jsonlPath c) =
      some bytes) :
    ∃ rows, ((steps ++ later).foldl LifeStep.play (Shared.empty ι)).bytes.jsonl (jsonlPath c) =
      some (bytes ++ rowBytes rows) := by
  rw [List.foldl_append]
  have hwrites : ∀ step : LifeStep ι, step.Keyed → step.Writes .keyed :=
    fun step hstep call hcall => (hstep call hcall).writes
  refine life_grown (fun step hstep => ⟨hwrites step (hlater step hstep).1, (hlater step hstep).2⟩)
    (life_written (fun step hstep => hwrites step (hsteps step hstep)) Disk.written_empty) ⟨[], ?_⟩
  simpa [rowBytes] using hbytes

/-- A client makes a collection. -/
def newUsers : List (LifeStep (Fin 2)) :=
  [⟨0, onlyClient, some (.createCollection "users" [] false), none⟩]

/-- The file of a new collection, and what the second client leaves of it. -/
theorem newUsers_appends :
    ∃ rows, ((newUsers ++ secondClient).foldl LifeStep.play (Shared.empty (Fin 2))).bytes.jsonl
      (jsonlPath "users") = some ([] ++ rowBytes rows) := by
  refine life_appends (by decide) ?_ rfl
  intro step hstep
  refine ⟨(by decide : ∀ step ∈ secondClient, step.Keyed) step hstep, ?_⟩
  simp only [secondClient, List.mem_cons, List.not_mem_nil, or_false] at hstep
  rcases hstep with rfl | rfl | rfl <;> simp [LifeStep.Spares, Call.Spares]

end Lives

end JsonpySql
