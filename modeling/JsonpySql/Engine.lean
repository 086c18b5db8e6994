/-
JsonpySql/Engine.lean

The storage engine: the registered collections with their indexes in memory,
and the operations that keep documents, indexes, logs and manifest together.

A direct write takes the collection's exclusive lock; applying a logged entry
takes none.  Opening a database reads the manifest, loads the indexes (and
rebuilds those of a collection with a missing index file), and replays every
log it finds.

A generator is modelled by the list of what it yields when it is consumed at
once.
-/
import JsonpySql.IndexManager
import JsonpySql.LockManager
import JsonpySql.Wal

namespace JsonpySql

/-- The registered collections with their indexes, in order of registration. -/
abbrev Registry := OrdDict String IndexManager

/-- Programs of the engine. -/
abbrev EngineM := StoreM Registry

namespace StorageEngine

/-- The `.jsonl` file of a collection. -/
def jsonlPath (collection : String) : String := collection ++ ".jsonl"

/-- Raise unless the collection is registered. -/
def require (collection : String) : EngineM Unit := do
  let registry ← Prog.getMem
  if collection ∈ registry.keys then pure ()
  else Prog.raise (.storageError ("Unknown collection: " ++ strRepr collection))

/-- Run a program of the index manager of a collection. -/
def indexes {α : Type} (collection : String) (p : StoreM IndexManager α) : EngineM α :=
  Prog.focus (fun registry : Registry => registry.get? collection)
    (fun registry im => registry.set collection im) (.keyError collection) p

/-- `{**document, "_id": docId}`. -/
def withId (document : Doc) (docId : String) : Doc := document.set "_id" (.str docId)

/-! ### Single-document writes -/

def insert (collection docId : String) (document : Doc) : EngineM Unit := do
  require collection
  let jsonl := jsonlPath collection
  LockManager.exclusive jsonl do
    DocumentStore.append jsonl docId document
    indexes collection (IndexManager.onInsert docId (withId document docId))

def update (collection docId : String) (document : Doc) : EngineM Unit := do
  require collection
  let jsonl := jsonlPath collection
  LockManager.exclusive jsonl do
    let old ← DocumentStore.get jsonl docId
    DocumentStore.append jsonl docId document
    indexes collection (IndexManager.onUpdate docId (old.map (withId · docId))
      (withId document docId))

def delete (collection docId : String) : EngineM Unit := do
  require collection
  let jsonl := jsonlPath collection
  LockManager.exclusive jsonl do
    let old ← DocumentStore.get jsonl docId
    DocumentStore.tombstone jsonl docId
    indexes collection (IndexManager.onDelete docId (old.map (withId · docId)))

/-! ### Reads -/

def get (collection docId : String) : EngineM (Option Doc) := do
  require collection
  let jsonl := jsonlPath collection
  LockManager.shared jsonl (DocumentStore.get jsonl docId)

def scan (collection : String) : EngineM (List Record) := do
  require collection
  let jsonl := jsonlPath collection
  LockManager.shared jsonl (DocumentStore.scan jsonl)

/-- `self._indexes[collection]`. -/
def indexManager (collection : String) : EngineM IndexManager := do
  let registry ← Prog.getMem
  match registry.get? collection with
  | none => Prog.raise (.keyError collection)
  | some im => pure im

/-- The ids of the documents whose field equals a value. -/
def lookup (collection field : String) (value : PyVal) : EngineM (List String) := do
  require collection
  let im ← indexManager collection
  -- the index is in memory, and no lock is taken
  if im.hasIndexFor field then return im.lookup field value
  else
    let jsonl := jsonlPath collection
    LockManager.shared jsonl do
      let docs ← DocumentStore.scan jsonl
      -- without an index the values are compared, not their encodings
      return (docs.filter fun r => (Doc.get r.doc field).eq value).filterMap Record.docId

/-- `v is not None and low <= v <= high`. -/
def inRange (low high v : PyVal) : Except String Bool := do
  if v = .none then return false
  if ← low.order .le v then v.order .le high else return false

/-- The ids of the rows whose field is in a range. -/
def filterInRange (field : String) (low high : PyVal) : List Record → Except String (List String)
  | [] => .ok []
  | r :: rs => do
      let hit ← inRange low high (Doc.get r.doc field)
      let ids ← filterInRange field low high rs
      return if hit then r.docId.toList ++ ids else ids

/-- The ids of the documents whose field lies between two bounds. -/
def rangeScan (collection field : String) (low high : PyVal) : EngineM (List String) := do
  require collection
  let im ← indexManager collection
  if im.hasIndexFor field then return im.rangeScan field low high
  else
    let jsonl := jsonlPath collection
    LockManager.shared jsonl do
      let docs ← DocumentStore.scan jsonl
      match filterInRange field low high docs with
      | .error msg => Prog.raise (.typeError msg)
      | .ok ids => pure ids

/-- The children registered under a parent in the indexes of a collection. -/
def getChildren (collection parentId : String) : EngineM (List String) := do
  let im ← indexManager collection
  return im.getChildren parentId

/-! ### Compaction -/

def compact (collection : String) : EngineM Unit := do
  require collection
  let jsonl := jsonlPath collection
  LockManager.exclusive jsonl do
    let live ← DocumentStore.scan jsonl
    DocumentStore.compact jsonl live
    indexes collection do
      Prog.modifyMem (·.rebuild live)
      IndexManager.save

/-! ### Collections -/

/-- Persist the registry. -/
def saveManifest : EngineM Unit := do
  let registry ← Prog.getMem
  Prog.writeAll [.replaceManifest (.payload (registry.mapValues IndexManager.specs))]

def dropCollection (name : String) : EngineM Unit := do
  require name
  DocumentStore.destroy (jsonlPath name)
  indexes name IndexManager.destroy
  Prog.modifyMem fun registry : Registry => registry.erase name
  saveManifest

/-- Make the files of a new collection and register it. -/
def registerNew (name : String) (specs : List IndexSpec) : EngineM Unit := do
  DocumentStore.create (jsonlPath name)
  let im := IndexManager.new name specs
  Prog.writeAll im.saveWrites
  Prog.modifyMem fun registry : Registry => registry.set name im
  saveManifest

def createCollection (name : String) (specs : List IndexSpec) (dropIfExists : Bool) :
    EngineM Unit := do
  let registry ← Prog.getMem
  if name ∈ registry.keys then
    if dropIfExists then
      dropCollection name
      registerNew name specs
    else
      Prog.raise (.collectionExistsError
        ("Collection " ++ strRepr name ++ " already exists. " ++
          "Pass drop_if_exists=True to replace it."))
  else registerNew name specs

/-! ### Logged operations -/

/-- `old if old else None`: an empty document counts as none. -/
def truthyDoc (old : Option Doc) : Option Doc := old.filter fun d => d.entries ≠ []

/-- Apply one entry of a log. -/
def applyEntry (entry : WALEntry) : EngineM Unit := do
  let col := entry.collection
  let jsonl := jsonlPath col
  require col
  -- no lock is taken, unlike in the direct calls
  let document := entry.document.getD OrdDict.empty
  match entry.op with
  | .insert =>
      DocumentStore.append jsonl entry.docId document
      indexes col (IndexManager.onInsert entry.docId (withId document entry.docId))
  | .update =>
      let old ← DocumentStore.get jsonl entry.docId
      DocumentStore.append jsonl entry.docId document
      indexes col (IndexManager.onUpdate entry.docId
        ((truthyDoc old).map (withId · entry.docId)) (withId document entry.docId))
  | .delete =>
      let old ← DocumentStore.get jsonl entry.docId
      DocumentStore.tombstone jsonl entry.docId
      indexes col (IndexManager.onDelete entry.docId
        ((truthyDoc old).map (withId · entry.docId)))

/-! ### Opening -/

/-- Load one collection of the manifest. -/
def loadCollection (name : String) (specs : List IndexSpec) : EngineM Unit := do
  let env ← Prog.env
  let disk ← Prog.getDisk
  match (IndexManager.new name specs).loadFrom env disk with
  | .error e => Prog.raise e
  | .ok im =>
      -- a corrupt file counts as loaded; only a missing one has all indexes rebuilt
      if specs.any fun spec => (disk.idx (IndexManager.idxPath name spec)).isNone then
        let live ← DocumentStore.scan (jsonlPath name)
        let im := im.rebuild live
        Prog.writeAll im.saveWrites
        Prog.modifyMem fun registry : Registry => registry.set name im
      else
        Prog.modifyMem fun registry : Registry => registry.set name im

/-- Load the registry. -/
def loadManifest : EngineM Unit := do
  let disk ← Prog.getDisk
  match disk.manifest with
  | none => pure ()
  | some (.corrupt msg) => Prog.raise (.storageError ("Corrupt manifest: " ++ msg))
  | some (.undecodable msg) => Prog.raise (.unicodeDecodeError msg)
  | some (.payload data) => data.entries.forM fun e => loadCollection e.1 e.2

/-- Apply an entry; skip it where the storage layer raises. -/
def replayEntry (entry : WALEntry) : EngineM Unit :=
  (applyEntry entry).tryCatch fun e => if e.isStorageError then pure () else Prog.raise e

/-- Replay one log file; a corrupt one is discarded. -/
def recoverFile (file : String) : EngineM Unit := do
  let entries ← ((some <$> WAL.readEntries file : EngineM _).tryCatch fun e =>
    match e with
    -- the intent of a corrupt log is not known
    | .walReplayError _ => pure none
    | e => Prog.raise e)
  match entries with
  | none => WAL.delete file
  | some entries => do
      entries.forM replayEntry
      WAL.delete file

/-- Replay all log files. -/
def recoverWal : EngineM Unit := do
  let env ← Prog.env
  let disk ← Prog.getDisk
  (WAL.findWalFiles env disk).forM recoverFile

/-- `StorageEngine(db_path)`, run on an empty memory. -/
def init : EngineM Unit := do
  loadManifest
  recoverWal

end StorageEngine

/-! ### Clients -/

/-- A write a client asks for, directly or through a transaction. -/
inductive WriteOp
  | insert (collection docId : String) (document : Doc)
  | update (collection docId : String) (document : Doc)
  | delete (collection docId : String)
deriving DecidableEq

namespace WriteOp

def collection : WriteOp → String
  | .insert c _ _ | .update c _ _ | .delete c _ => c

def docId : WriteOp → String
  | .insert _ i _ | .update _ i _ | .delete _ i => i

/-- The document the operation carries. -/
def document : WriteOp → Option Doc
  | .insert _ _ d | .update _ _ d => some d
  | .delete _ _ => none

/-- The direct call. -/
def direct : WriteOp → EngineM Unit
  | .insert c i d => StorageEngine.insert c i d
  | .update c i d => StorageEngine.update c i d
  | .delete c i => StorageEngine.delete c i

/-- The entry the operation is logged as. -/
def entry : WriteOp → WALEntry
  | .insert c i d => ⟨.insert, c, i, some d⟩
  | .update c i d => ⟨.update, c, i, some d⟩
  | .delete c i => ⟨.delete, c, i, none⟩

end WriteOp

/-! ### Transactions -/

namespace Transaction

/-- The name of the log of a new transaction. -/
def walPath (env : Env) : String := String.ofList (hexDigits 32 env.uuid.toNat) ++ ".wal"

/-- `StorageEngine.begin_transaction`: a transaction is its log file. -/
def begin : EngineM String := do
  let env ← Prog.env
  return walPath env

/-- Buffer one operation. -/
def buffer (file : String) (op : WriteOp) : EngineM Unit := WAL.append file op.entry

/-- Apply all buffered operations and remove the log. -/
def commit (file : String) : EngineM Unit := do
  let entries ← WAL.readEntries file
  entries.forM StorageEngine.applyEntry
  WAL.delete file

/-- Discard all buffered operations. -/
def rollback (file : String) : EngineM Unit := WAL.delete file

/-- Leaving the `with` block: commit on a clean exit, else roll back. -/
def exit (file : String) (clean : Bool) : EngineM Unit :=
  if clean then commit file else rollback file

end Transaction

end JsonpySql
