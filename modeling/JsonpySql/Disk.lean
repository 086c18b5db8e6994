/-
JsonpySql/Disk.lean

The database directory and what is written to it.

A file is known by its name: `<c>.jsonl` holds the documents of collection
`c`, `<c>.<fields>.idx` and `<c>.ridx` its saved indexes, `manifest.json` the
registry, and every `.wal` file the buffered operations of one transaction.
A file's content is kept as what the parser makes of it.  Two collections
whose index files get one name share the file, as they do on disk.

Every write is one atomic step: a line appended, a file replaced by its
finished temporary file, a file created or removed.
-/
import JsonpySql.CrashProg
import JsonpySql.InvertedIndex
import JsonpySql.PyVal

namespace JsonpySql

/-! ### Exceptions -/

/-- The exceptions the library and the callables it is given raise, with their
messages. -/
inductive PyErr
  | storageError (msg : String)
  | lockTimeoutError (msg : String)
  | walReplayError (msg : String)
  | validationError (msg : String)
  | uniqueConstraintError (msg : String)
  | referentialIntegrityError (msg : String)
  | collectionExistsError (msg : String)
  | typeError (msg : String)
  | keyError (key : String)
  | indexError (msg : String)
  | overflowError (msg : String)
  | unicodeDecodeError (msg : String)
  | valueError (msg : String)
  | recursionError (msg : String)
deriving DecidableEq

/-- What `except StorageError` catches: the class and its subclasses. -/
def PyErr.isStorageError : PyErr → Bool
  | .storageError _ | .lockTimeoutError _ | .walReplayError _ => true
  | _ => false

/-! ### Lines and entries -/

/-- Specification of one index. -/
structure IndexSpec where
  fields : List String
  unique : Bool
deriving DecidableEq

/-- A line of a `.jsonl` file as `json.loads` returns it: a JSON-native
mapping whose `_id`, if it has one, is a string. -/
structure Record where
  doc : Doc
  native : doc.Native
  id_str : ∀ v, doc.get? "_id" = some v → v = .none ∨ ∃ s, v = .str s

namespace Record

theorem ext_doc {r r' : Record} (h : r.doc = r'.doc) : r = r' := by
  cases r; cases r'; simp_all

instance : DecidableEq Record := fun r r' =>
  decidable_of_iff (r.doc = r'.doc) ⟨ext_doc, fun h => by rw [h]⟩

/-- The line written for a document stored under `docId`. -/
def ofDoc (docId : String) (document : Doc) : Record where
  doc := Doc.viaJson (document.set "_id" (.str docId))
  native := Doc.native_viaJson _
  id_str v hv := by
    rw [Doc.viaJson_set, PyVal.viaJson_str, OrdDict.get?_set_self] at hv
    exact Or.inr ⟨docId, (Option.some.inj hv).symm⟩

/-- `record.get("_id")`, when it is not `None`. -/
def docId (r : Record) : Option String :=
  match r.doc.get? "_id" with
  | some (.str s) => some s
  | _ => none

/-- `bool(record.get("_deleted"))`. -/
def deleted (r : Record) : Bool := (Doc.get r.doc "_deleted").truthy

/-- The document without its `_id` key. -/
def stripId (r : Record) : Doc := r.doc.erase "_id"

@[simp] theorem docId_ofDoc (docId : String) (document : Doc) :
    (ofDoc docId document).docId = some docId := by
  simp [Record.docId, ofDoc, Doc.viaJson_set]

end Record

inductive Op
  | insert | update | delete
deriving DecidableEq

/-- One operation of a write-ahead log. -/
structure WALEntry where
  op : Op
  collection : String
  docId : String
  document : Option Doc
deriving DecidableEq

/-- A line of a `.wal` file: an entry, text that is no JSON or a JSON object that is
no entry, another JSON value, or bytes that are no UTF-8. -/
inductive WalLine
  | entry (e : WALEntry)
  | corrupt (msg : String)
  | foreign (msg : String)
  | undecodable (msg : String)
deriving DecidableEq

/-! ### Saved indexes and registry -/

/-- In-memory index: encoded key to document ids, in key order. -/
abbrev SortedDict := InvertedIndex String String

/-- Content of an `.idx` file: JSON with its data or without, text that is no JSON, or
bytes that are no UTF-8. -/
inductive IdxFile
  | payload (fields : List String) (unique : Bool) (data : OrdDict String (List String))
  | badData
  | corrupt (msg : String)
  | undecodable (msg : String)
deriving DecidableEq

/-- Content of a `.ridx` file. -/
inductive RidxFile
  | payload (data : OrdDict String (List String))
  | corrupt (msg : String)
  | undecodable (msg : String)
deriving DecidableEq

/-- Content of `manifest.json`. -/
inductive ManifestFile
  | payload (data : OrdDict String (List IndexSpec))
  | corrupt (msg : String)
  | undecodable (msg : String)
deriving DecidableEq

/-- The file is text. -/
def IdxFile.isText : IdxFile → Bool
  | .undecodable _ => false
  | _ => true

def RidxFile.isText : RidxFile → Bool
  | .undecodable _ => false
  | _ => true

/-! ### The directory -/

/-- The database directory. -/
structure Disk where
  manifest : Option ManifestFile
  jsonl : String → Option (List Record)
  idx : String → Option IdxFile
  ridx : String → Option RidxFile
  wal : OrdDict String (List WalLine)

/-- A directory without files. -/
def Disk.empty : Disk := ⟨none, fun _ => none, fun _ => none, fun _ => none, OrdDict.empty⟩

instance : Inhabited Disk := ⟨.empty⟩

/-- Atomic writes. -/
inductive DiskWrite
  | touchJsonl (file : String)
  | appendJsonl (file : String) (line : Record)
  | replaceJsonl (file : String) (lines : List Record)
  | unlinkJsonl (file : String)
  | replaceIdx (file : String) (content : IdxFile)
  | unlinkIdx (file : String)
  | replaceRidx (file : String) (content : RidxFile)
  | unlinkRidx (file : String)
  | replaceManifest (content : ManifestFile)
  | appendWal (file : String) (line : WalLine)
  | unlinkWal (file : String)

/-- Opening for append creates a missing file; unlinking one is no error. -/
def Disk.write (d : Disk) : DiskWrite → Disk
  | .touchJsonl file => { d with jsonl := Function.update d.jsonl file (some []) }
  | .appendJsonl file line =>
      { d with jsonl := Function.update d.jsonl file (some ((d.jsonl file).getD [] ++ [line])) }
  | .replaceJsonl file lines => { d with jsonl := Function.update d.jsonl file (some lines) }
  | .unlinkJsonl file => { d with jsonl := Function.update d.jsonl file none }
  | .replaceIdx file content => { d with idx := Function.update d.idx file (some content) }
  | .unlinkIdx file => { d with idx := Function.update d.idx file none }
  | .replaceRidx file content => { d with ridx := Function.update d.ridx file (some content) }
  | .unlinkRidx file => { d with ridx := Function.update d.ridx file none }
  | .replaceManifest content => { d with manifest := some content }
  | .appendWal file line => { d with wal := d.wal.set file ((d.wal.get? file).getD [] ++ [line]) }
  | .unlinkWal file => { d with wal := d.wal.erase file }

instance : Storage Disk DiskWrite := ⟨Disk.write⟩

/-- Writes that only touch saved indexes, and leave text. -/
def DiskWrite.isIndex : DiskWrite → Bool
  | .replaceIdx _ content => content.isText
  | .replaceRidx _ content => content.isText
  | .unlinkIdx _ | .unlinkRidx _ => true
  | _ => false

/-- Saved indexes that were text still are. -/
structure Disk.KeepsText (d d' : Disk) : Prop where
  idx : ∀ path, (d.idx path).all IdxFile.isText = true → (d'.idx path).all IdxFile.isText = true
  ridx : ∀ path, (d.ridx path).all RidxFile.isText = true →
    (d'.ridx path).all RidxFile.isText = true

theorem Disk.KeepsText.refl (d : Disk) : d.KeepsText d := ⟨fun _ h => h, fun _ h => h⟩

theorem Disk.KeepsText.trans {d d' d'' : Disk} (h : d.KeepsText d') (h' : d'.KeepsText d'') :
    d.KeepsText d'' :=
  ⟨fun path hpath => h'.idx path (h.idx path hpath),
    fun path hpath => h'.ridx path (h.ridx path hpath)⟩

/-- The parts of the directory that are not saved indexes are the same. -/
structure Disk.SameData (d d' : Disk) : Prop where
  manifest : d'.manifest = d.manifest
  jsonl : d'.jsonl = d.jsonl
  wal : d'.wal = d.wal
  text : d.KeepsText d'

theorem Disk.SameData.refl (d : Disk) : d.SameData d := ⟨rfl, rfl, rfl, .refl d⟩

theorem Disk.SameData.trans {d d' d'' : Disk} (h : d.SameData d') (h' : d'.SameData d'') :
    d.SameData d'' :=
  ⟨h'.manifest.trans h.manifest, h'.jsonl.trans h.jsonl, h'.wal.trans h.wal, h.text.trans h'.text⟩

/-- A file is replaced by text, or removed. -/
theorem all_update {α : Type*} {f : String → Option α} {p : α → Bool} {file : String}
    {content : Option α} (hcontent : content.all p = true) (path : String)
    (h : (f path).all p = true) : (Function.update f file content path).all p = true := by
  rw [Function.update_apply]
  split
  · exact hcontent
  · exact h

/-- Writes that leave saved indexes text, if they touch them. -/
def DiskWrite.leavesText : DiskWrite → Bool
  | .replaceIdx _ content => content.isText
  | .replaceRidx _ content => content.isText
  | _ => true

theorem Disk.keepsText_write {w : DiskWrite} (h : w.leavesText = true) (d : Disk) :
    d.KeepsText (d.write w) := by
  cases w with
  | replaceIdx file content => exact ⟨all_update h, fun _ h => h⟩
  | unlinkIdx file => exact ⟨all_update rfl, fun _ h => h⟩
  | replaceRidx file content => exact ⟨fun _ h => h, all_update h⟩
  | unlinkRidx file => exact ⟨fun _ h => h, all_update rfl⟩
  | touchJsonl _ | appendJsonl _ _ | replaceJsonl _ _ | unlinkJsonl _ | replaceManifest _
  | appendWal _ _ | unlinkWal _ => exact ⟨fun _ h => h, fun _ h => h⟩

theorem Disk.keepsText_applyAll {ws : List DiskWrite} (h : ∀ w ∈ ws, w.leavesText = true)
    (d : Disk) : d.KeepsText (applyAll d ws) :=
  applyAll_induction (P := fun d' => d.KeepsText d') (.refl d)
    fun w hw d' hd' => hd'.trans (d'.keepsText_write (h w hw))

/-- An index file is text once it has been written. -/
theorem Disk.isText_idx_applyAll {ws : List DiskWrite} (h : ∀ w ∈ ws, w.leavesText = true)
    {file : String} {content : IdxFile} (hmem : DiskWrite.replaceIdx file content ∈ ws) (d : Disk) :
    ((applyAll d ws).idx file).all IdxFile.isText = true := by
  obtain ⟨before, after, rfl⟩ := List.append_of_mem hmem
  have hafter : ∀ w ∈ after, w.leavesText = true := fun w hw => h w (by simp [hw])
  rw [applyAll_append, applyAll_cons]
  refine (Disk.keepsText_applyAll hafter ((applyAll d before).write (.replaceIdx file content))).idx
    file ?_
  show (Function.update (applyAll d before).idx file (some content) file).all _ = true
  rw [Function.update_self]
  exact h _ hmem

theorem Disk.isText_ridx_applyAll {ws : List DiskWrite} (h : ∀ w ∈ ws, w.leavesText = true)
    {file : String} {content : RidxFile} (hmem : DiskWrite.replaceRidx file content ∈ ws)
    (d : Disk) : ((applyAll d ws).ridx file).all RidxFile.isText = true := by
  obtain ⟨before, after, rfl⟩ := List.append_of_mem hmem
  have hafter : ∀ w ∈ after, w.leavesText = true := fun w hw => h w (by simp [hw])
  rw [applyAll_append, applyAll_cons]
  have hkept :=
    Disk.keepsText_applyAll hafter ((applyAll d before).write (.replaceRidx file content))
  refine hkept.ridx file ?_
  show (Function.update (applyAll d before).ridx file (some content) file).all _ = true
  rw [Function.update_self]
  exact h _ hmem

/-- Writes to saved indexes leave everything else alone. -/
theorem Disk.sameData_applyAll {ws : List DiskWrite} (h : ∀ w ∈ ws, w.isIndex = true)
    (d : Disk) : d.SameData (applyAll d ws) := by
  refine applyAll_induction (P := fun d' => d.SameData d') (.refl d) fun w hw d' hd' => ?_
  refine hd'.trans ?_
  have hindex := h w hw
  cases w with
  | replaceIdx file content =>
      exact ⟨rfl, rfl, rfl, d'.keepsText_write (w := .replaceIdx file content) hindex⟩
  | replaceRidx file content =>
      exact ⟨rfl, rfl, rfl, d'.keepsText_write (w := .replaceRidx file content) hindex⟩
  | unlinkIdx _ | unlinkRidx _ => exact ⟨rfl, rfl, rfl, d'.keepsText_write rfl⟩
  | touchJsonl _ | appendJsonl _ _ | replaceJsonl _ _ | unlinkJsonl _ | replaceManifest _
  | appendWal _ _ | unlinkWal _ => cases hindex

/-! ### The surroundings of a call -/

inductive LockMode
  | shared | exclusive
deriving DecidableEq

/-- What a call finds around it: where the database is, how long it waits for a
lock, the locks other clients hold on the files, the UUID the generator returns
next, and the order in which the directory lists its files. -/
structure Env where
  dbPath : String
  lockTimeout : PyFloat
  held : String → Option LockMode
  uuid : BitVec 128
  listedBefore : String → String → Bool

/-- `str(self._db_path / file)`. -/
def Env.path (env : Env) (file : String) : String := env.dbPath ++ "/" ++ file

/-- No other client holds a lock. -/
def Env.Alone (env : Env) : Prop := ∀ file, env.held file = none

/-- The system's message for a file that is not there. -/
def Env.noSuchFile (env : Env) (file : String) : String :=
  "[Errno 2] No such file or directory: " ++ strRepr (env.path file)

/-- Programs of the storage layer over a memory `σ`. -/
abbrev StoreM (σ : Type) := Prog Env PyErr σ Disk DiskWrite

end JsonpySql
