/-
JsonpySql/IndexManager.lean

The indexes of one collection: for each spec a sorted map from encoded keys to
document ids, and one reverse map from parent ids to child ids.  Every change
is made in memory and then saved, all `.idx` files first and the `.ridx` file
last, each replaced atomically.

What the map of a spec should say about a table is `keyOf spec table`: each
live id with the encoded key of its document.  Filing and removing a document
move this function in step with the table (`addToIndexes_*`,
`removeFromIndexes_*`), so the two invariants of an inverted index carry over
to a whole index manager.
-/
import JsonpySql.DocumentStore

namespace JsonpySql

/-! ### Keys -/

/-- The separator of compound keys. -/
def compoundSep : Char := '\x1f'

/-- An index key: one value, or a tuple of values. -/
inductive Key
  | scalar (v : PyVal)
  | tuple (vs : List PyVal)

/-- Encode a key as a string. -/
def encodeKey : Key → String
  | .tuple parts => (String.singleton compoundSep).intercalate (parts.map PyVal.toStr)
  | .scalar v => v.toStr

/-- Decode a stored key. -/
def decodeKey (raw : String) (isCompound : Bool) : Key :=
  if isCompound then
    .tuple ((raw.toList.splitOn compoundSep).map fun part => .str (String.ofList part))
  else .scalar (.str raw)

/-- Decoding and encoding again gives the stored key. -/
theorem encodeKey_decodeKey (raw : String) (isCompound : Bool) :
    encodeKey (decodeKey raw isCompound) = raw := by
  cases isCompound with
  | false => rfl
  | true =>
      refine String.toList_injective ?_
      simp only [decodeKey, if_true, encodeKey, String.toList_intercalate, List.map_map,
        Function.comp_def, PyVal.toStr_str, String.toList_ofList, List.map_id',
        String.toList_singleton]
      -- joining undoes splitting, wherever the separator stands
      exact List.intercalate_splitOn compoundSep

namespace IndexSpec

/-- The index key of a document. -/
def makeKey (spec : IndexSpec) (document : Doc) : Key :=
  match spec.fields with
  | [field] => .scalar (document.get field)
  | fields => .tuple (fields.map document.get)

/-- The encoded index key of a document. -/
def key (spec : IndexSpec) (document : Doc) : String := encodeKey (spec.makeKey document)

/-- A key depends on what the fields read as, not on their order. -/
theorem key_congr (spec : IndexSpec) {d d' : Doc} (h : ∀ field, d.get field = d'.get field) :
    spec.key d = spec.key d' := by
  have hget : d.get = d'.get := funext h
  simp only [key, makeKey, hget]

theorem key_single {spec : IndexSpec} {field : String} (h : spec.fields = [field]) (d : Doc) :
    spec.key d = (d.get field).toStr := by
  simp [key, makeKey, h, encodeKey]

end IndexSpec

/-! ### The manager -/

/-- The indexes of a collection, each next to its spec. -/
structure IndexManager where
  collection : String
  indexes : List (IndexSpec × SortedDict)
  reverse : SortedDict

namespace IndexManager

/-- A manager with empty indexes. -/
def new (collection : String) (specs : List IndexSpec) : IndexManager :=
  ⟨collection, specs.map fun spec => (spec, ∅), ∅⟩

/-- `self._specs`. -/
def specs (im : IndexManager) : List IndexSpec := im.indexes.map Prod.fst

/-- The `.idx` file of a spec. -/
def idxPath (collection : String) (spec : IndexSpec) : String :=
  collection ++ "." ++ "_".intercalate spec.fields ++ ".idx"

/-- The `.ridx` file. -/
def ridxPath (collection : String) : String := collection ++ ".ridx"

/-! ### In memory -/

def addToIndexes (im : IndexManager) (docId : String) (document : Doc) : IndexManager :=
  { im with indexes := im.indexes.map fun e => (e.1, e.2.add (e.1.key document) docId) }

def removeFromIndexes (im : IndexManager) (docId : String) (document : Doc) : IndexManager :=
  { im with indexes := im.indexes.map fun e => (e.1, e.2.remove (e.1.key document) docId) }

/-- All indexes, rebuilt from the live rows.  The reverse index is emptied. -/
def rebuild (im : IndexManager) (documents : List Record) : IndexManager :=
  documents.foldl (fun im r => im.addToIndexes (r.docId.getD "") r.doc)
    (new im.collection im.specs)

/-- The first single-field index on a field. -/
def findIndexFor (im : IndexManager) (field : String) : Option SortedDict :=
  (im.indexes.find? fun e => e.1.fields = [field]).map Prod.snd

def hasIndexFor (im : IndexManager) (field : String) : Bool := (im.findIndexFor field).isSome

/-- The ids listed under a value of a field. -/
def lookup (im : IndexManager) (field : String) (value : PyVal) : List String :=
  match im.findIndexFor field with
  | none => []
  | some idx => idx.ids (encodeKey (.scalar value))

/-- The ids listed under the keys between two bounds. -/
def rangeScan (im : IndexManager) (field : String) (low high : PyVal) : List String :=
  match im.findIndexFor field with
  | none => []
  | some idx =>
      idx.select fun key => encodeKey (.scalar low) ≤ key ∧ key ≤ encodeKey (.scalar high)

/-- The children registered under a parent. -/
def getChildren (im : IndexManager) (parentId : String) : List String :=
  im.reverse.ids parentId

/-- The index a field is looked up in. -/
theorem lookup_of_find {im : IndexManager} {field : String} {e : IndexSpec × SortedDict}
    (h : im.indexes.find? (fun e => e.1.fields = [field]) = some e) (v : PyVal) :
    im.hasIndexFor field = true ∧ im.lookup field v = InvertedIndex.ids e.2 v.toStr ∧
      e ∈ im.indexes ∧ e.1.fields = [field] := by
  have hfind : im.findIndexFor field = some e.2 := by
    rw [findIndexFor, h]
    rfl
  refine ⟨?_, ?_, List.mem_of_find?_eq_some h, by simpa using List.find?_some h⟩
  · rw [hasIndexFor, hfind]
    rfl
  · rw [lookup, hfind]
    rfl

/-! ### Saved -/

/-- A forward index as its file holds it. -/
def idxPayload (spec : IndexSpec) (idx : SortedDict) : IdxFile :=
  .payload spec.fields spec.unique (OrdDict.ofList idx.toList)

/-- The file replacements of `save`. -/
def saveWrites (im : IndexManager) : List DiskWrite :=
  im.indexes.map (fun e => .replaceIdx (idxPath im.collection e.1) (idxPayload e.1 e.2)) ++
    [.replaceRidx (ridxPath im.collection) (.payload (OrdDict.ofList im.reverse.toList))]

/-- The file removals of `destroy`. -/
def unlinkWrites (im : IndexManager) : List DiskWrite :=
  im.indexes.map (fun e => .unlinkIdx (idxPath im.collection e.1)) ++
    [.unlinkRidx (ridxPath im.collection)]

/-- Read a forward index back, key by key. -/
def readIdx (path : String) (spec : IndexSpec) : IdxFile → Except PyErr SortedDict
  | .payload _ _ data =>
      .ok (data.entries.foldl
        (fun idx e => idx.insert (encodeKey (decodeKey e.1 (1 < spec.fields.length))) e.2) ∅)
  | .badData =>
      .error (.storageError ("Corrupt index file " ++ path ++ ": 'data' is not a dict"))
  | .corrupt msg => .error (.storageError ("Cannot read index " ++ path ++ ": " ++ msg))
  -- a `ValueError`, which is neither an `OSError` nor a `JSONDecodeError`
  | .undecodable msg => .error (.unicodeDecodeError msg)

/-- Read the reverse index back. -/
def readRidx (path : String) : RidxFile → Except PyErr SortedDict
  | .payload data => .ok (InvertedIndex.ofEntries data.entries)
  | .corrupt msg => .error (.storageError ("Cannot read index " ++ path ++ ": " ++ msg))
  | .undecodable msg => .error (.unicodeDecodeError msg)

/-- What `load` makes of what it has read: where the storage layer raises, the index
is empty. -/
def orEmpty : Except PyErr SortedDict → Except PyErr SortedDict
  | .ok idx => .ok idx
  | .error e => if e.isStorageError then .ok ∅ else .error e

/-- One index from its file; a missing file leaves it as it is. -/
def loadIdx (im : IndexManager) (env : Env) (disk : Disk) (e : IndexSpec × SortedDict) :
    Except PyErr (IndexSpec × SortedDict) := do
  let path := idxPath im.collection e.1
  match disk.idx path with
  | none => return e
  | some file => return (e.1, ← orEmpty (readIdx (env.path path) e.1 file))

def loadRidx (im : IndexManager) (env : Env) (disk : Disk) : Except PyErr SortedDict :=
  let path := ridxPath im.collection
  match disk.ridx path with
  | none => .ok im.reverse
  | some file => orEmpty (readRidx (env.path path) file)

/-- Load the saved indexes. -/
def loadFrom (im : IndexManager) (env : Env) (disk : Disk) : Except PyErr IndexManager := do
  let indexes ← im.indexes.mapM (im.loadIdx env disk)
  return ⟨im.collection, indexes, ← im.loadRidx env disk⟩

/-- The indexes that are loaded from files that are all text. -/
def loaded (im : IndexManager) (env : Env) (disk : Disk) : IndexManager where
  collection := im.collection
  indexes := im.indexes.map fun e =>
    let path := idxPath im.collection e.1
    match disk.idx path with
    | none => e
    | some file => (e.1, (readIdx (env.path path) e.1 file).toOption.getD ∅)
  reverse :=
    let path := ridxPath im.collection
    match disk.ridx path with
    | none => im.reverse
    | some file => (readRidx (env.path path) file).toOption.getD ∅

/-- The index files of a collection are text. -/
def Readable (disk : Disk) (collection : String) (specs : List IndexSpec) : Prop :=
  (∀ spec ∈ specs, (disk.idx (idxPath collection spec)).all IdxFile.isText = true) ∧
    (disk.ridx (ridxPath collection)).all RidxFile.isText = true

instance (disk : Disk) (collection : String) (specs : List IndexSpec) :
    Decidable (Readable disk collection specs) := inferInstanceAs (Decidable (_ ∧ _))

/-! ### Operations -/

/-- Persist all indexes. -/
def save : StoreM IndexManager Unit := do
  let im ← Prog.getMem
  Prog.writeAll im.saveWrites

def load : StoreM IndexManager Unit := do
  let env ← Prog.env
  let disk ← Prog.getDisk
  let im ← Prog.getMem
  match im.loadFrom env disk with
  | .error e => Prog.raise e
  | .ok im => Prog.modifyMem fun _ => im

/-- Delete all index files. -/
def destroy : StoreM IndexManager Unit := do
  let im ← Prog.getMem
  Prog.writeAll im.unlinkWrites

def onInsert (docId : String) (document : Doc) : StoreM IndexManager Unit := do
  Prog.modifyMem (·.addToIndexes docId document)
  save

/-- The indexes after a document was replaced. -/
def replaceInIndexes (im : IndexManager) (docId : String) (oldDoc : Option Doc)
    (newDoc : Doc) : IndexManager :=
  match oldDoc with
  | none => im.addToIndexes docId newDoc
  | some old => (im.removeFromIndexes docId old).addToIndexes docId newDoc

def onUpdate (docId : String) (oldDoc : Option Doc) (newDoc : Doc) :
    StoreM IndexManager Unit := do
  Prog.modifyMem (·.replaceInIndexes docId oldDoc newDoc)
  save

/-- The indexes after a document was deleted. -/
def dropFromIndexes (im : IndexManager) (docId : String) (document : Option Doc) :
    IndexManager :=
  match document with
  | none => im
  | some old => im.removeFromIndexes docId old

def onDelete (docId : String) (document : Option Doc) : StoreM IndexManager Unit := do
  Prog.modifyMem (·.dropFromIndexes docId document)
  save

def addReverse (parentId childId : String) : StoreM IndexManager Unit := do
  Prog.modifyMem fun im => { im with reverse := im.reverse.add parentId childId }
  save

def removeReverse (parentId childId : String) : StoreM IndexManager Unit := do
  Prog.modifyMem fun im => { im with reverse := im.reverse.remove parentId childId }
  save

/-! ### Runs -/

variable {env : Env} {w : World IndexManager Disk}

@[simp] theorem run_onInsert (docId : String) (document : Doc) :
    (onInsert docId document).run env w =
      ⟨.ok (), w.mem.addToIndexes docId document,
        (w.mem.addToIndexes docId document).saveWrites⟩ := rfl

@[simp] theorem run_onUpdate (docId : String) (oldDoc : Option Doc) (newDoc : Doc) :
    (onUpdate docId oldDoc newDoc).run env w =
      ⟨.ok (), w.mem.replaceInIndexes docId oldDoc newDoc,
        (w.mem.replaceInIndexes docId oldDoc newDoc).saveWrites⟩ := rfl

@[simp] theorem run_onDelete (docId : String) (document : Option Doc) :
    (onDelete docId document).run env w =
      ⟨.ok (), w.mem.dropFromIndexes docId document,
        (w.mem.dropFromIndexes docId document).saveWrites⟩ := rfl

theorem isIndex_saveWrites (im : IndexManager) : ∀ w ∈ im.saveWrites, w.isIndex = true := by
  intro w hw
  simp only [saveWrites, List.mem_append, List.mem_map, List.mem_singleton] at hw
  rcases hw with ⟨e, -, rfl⟩ | rfl <;> rfl

theorem isIndex_unlinkWrites (im : IndexManager) : ∀ w ∈ im.unlinkWrites, w.isIndex = true := by
  intro w hw
  simp only [unlinkWrites, List.mem_append, List.mem_map, List.mem_singleton] at hw
  rcases hw with ⟨e, -, rfl⟩ | rfl <;> rfl

/-- An index is read back as it was saved. -/
theorem readIdx_idxPayload (path : String) (spec : IndexSpec) (idx : SortedDict) :
    readIdx path spec (idxPayload spec idx) = .ok idx := by
  simp only [readIdx, idxPayload, encodeKey_decodeKey,
    OrdDict.entries_ofList_of_nodup idx.nodup_keys]
  exact congrArg Except.ok idx.ofEntries_toList

/-- A turn of a loop that returns for every element. -/
theorem mapM_eq_ok {ε α β : Type} {f : α → Except ε β} {g : α → β} {l : List α}
    (h : ∀ a ∈ l, f a = .ok (g a)) : l.mapM f = .ok (l.map g) := by
  induction l with
  | nil => rfl
  | cons a l ih =>
      rw [List.mapM_cons, h a List.mem_cons_self,
        ih fun a' ha' => h a' (List.mem_cons_of_mem _ ha')]
      rfl

/-- A loop that raises for some element raises what one of them raises. -/
theorem exists_mapM_error {ε α β : Type} {f : α → Except ε β} {l : List α}
    (h : ∃ a ∈ l, ∃ e, f a = .error e) : ∃ a ∈ l, ∃ e, f a = .error e ∧ l.mapM f = .error e := by
  induction l with
  | nil =>
      obtain ⟨a, ha, -⟩ := h
      cases ha
  | cons a l ih =>
      rcases hf : f a with e | b
      · exact ⟨a, List.mem_cons_self, e, hf, by rw [List.mapM_cons, hf]; rfl⟩
      · have hrest : ∃ a ∈ l, ∃ e, f a = .error e := by
          obtain ⟨a', ha', e, he⟩ := h
          rcases List.mem_cons.mp ha' with rfl | ha'
          · cases hf.symm.trans he
          · exact ⟨a', ha', e, he⟩
        obtain ⟨a', ha', e, he, hmap⟩ := ih hrest
        exact ⟨a', List.mem_cons_of_mem _ ha', e, he, by rw [List.mapM_cons, hf, hmap]; rfl⟩

theorem orEmpty_readIdx {file : IdxFile} (h : file.isText = true) (path : String)
    (spec : IndexSpec) :
    orEmpty (readIdx path spec file) = .ok ((readIdx path spec file).toOption.getD ∅) := by
  cases file with
  | payload _ _ _ | badData | corrupt _ => rfl
  | undecodable _ => cases h

theorem orEmpty_readRidx {file : RidxFile} (h : file.isText = true) (path : String) :
    orEmpty (readRidx path file) = .ok ((readRidx path file).toOption.getD ∅) := by
  cases file with
  | payload _ | corrupt _ => rfl
  | undecodable _ => cases h

/-- The forward indexes are loaded from files that are text. -/
theorem mapM_loadIdx {im : IndexManager} {disk : Disk} (env : Env)
    (h : ∀ spec ∈ im.specs, (disk.idx (idxPath im.collection spec)).all IdxFile.isText = true) :
    im.indexes.mapM (im.loadIdx env disk) = .ok (im.loaded env disk).indexes := by
  refine mapM_eq_ok fun e he => ?_
  have htext := h e.1 (List.mem_map_of_mem he)
  rw [loadIdx]
  rcases hfile : disk.idx (idxPath im.collection e.1) with _ | file
  · simp only [hfile]
    rfl
  · rw [hfile] at htext
    simp only [hfile, orEmpty_readIdx htext]
    rfl

/-- Writes that keep text text keep a collection readable. -/
theorem Readable.keep {disk disk' : Disk} {collection : String} {specs : List IndexSpec}
    (h : Readable disk collection specs) (hkeep : disk.KeepsText disk') :
    Readable disk' collection specs :=
  ⟨fun spec hspec => hkeep.idx _ (h.1 spec hspec), hkeep.ridx _ h.2⟩

/-- **Files that are text** are loaded, whatever the text is. -/
theorem loadFrom_of_readable {im : IndexManager} {disk : Disk}
    (h : Readable disk im.collection im.specs) (env : Env) :
    im.loadFrom env disk = .ok (im.loaded env disk) := by
  have hreverse : im.loadRidx env disk = .ok (im.loaded env disk).reverse := by
    rw [loadRidx, loaded]
    rcases hfile : disk.ridx (ridxPath im.collection) with _ | file
    · simp only [hfile]
    · have htext := h.2
      rw [hfile] at htext
      simp only [hfile, orEmpty_readRidx htext]
  rw [loadFrom, mapM_loadIdx env h.1, hreverse]
  rfl

/-- **A file that is no text** is not survived. -/
theorem loadFrom_of_not_readable {im : IndexManager} {disk : Disk}
    (h : ¬Readable disk im.collection im.specs) (env : Env) :
    ∃ msg, im.loadFrom env disk = .error (.unicodeDecodeError msg) := by
  have hturn : ∀ e err, im.loadIdx env disk e = .error err →
      ∃ msg, err = .unicodeDecodeError msg := by
    intro e err herr
    rw [loadIdx] at herr
    rcases hfile : disk.idx (idxPath im.collection e.1) with _ | file
    · simp only [hfile] at herr
      cases herr
    · simp only [hfile] at herr
      cases file with
      | payload _ _ _ | badData | corrupt _ => cases herr
      | undecodable msg =>
          cases herr
          exact ⟨msg, rfl⟩
  by_cases hidx : ∀ spec ∈ im.specs, (disk.idx (idxPath im.collection spec)).all IdxFile.isText
  · have hridx : (disk.ridx (ridxPath im.collection)).all RidxFile.isText ≠ true :=
      fun hridx => h ⟨hidx, hridx⟩
    obtain ⟨msg, hfile⟩ : ∃ msg, disk.ridx (ridxPath im.collection) = some (.undecodable msg) := by
      rcases hfile : disk.ridx (ridxPath im.collection) with _ | _ | _ | msg
      · exact absurd (by rw [hfile]; rfl) hridx
      · exact absurd (by rw [hfile]; rfl) hridx
      · exact absurd (by rw [hfile]; rfl) hridx
      · exact ⟨msg, rfl⟩
    refine ⟨msg, ?_⟩
    have hreverse : im.loadRidx env disk = .error (.unicodeDecodeError msg) := by
      rw [loadRidx]
      simp only [hfile]
      rfl
    rw [loadFrom, mapM_loadIdx env hidx, hreverse]
    rfl
  · push Not at hidx
    obtain ⟨spec, hspec, htext⟩ := hidx
    obtain ⟨e, he, rfl⟩ := List.mem_map.mp hspec
    obtain ⟨msg, hfile⟩ :
        ∃ msg, disk.idx (idxPath im.collection e.1) = some (.undecodable msg) := by
      rcases hfile : disk.idx (idxPath im.collection e.1) with _ | _ | _ | _ | msg
      · exact absurd (by rw [hfile]; rfl) htext
      · exact absurd (by rw [hfile]; rfl) htext
      · exact absurd (by rw [hfile]; rfl) htext
      · exact absurd (by rw [hfile]; rfl) htext
      · exact ⟨msg, rfl⟩
    have hraises : im.loadIdx env disk e = .error (.unicodeDecodeError msg) := by
      rw [loadIdx]
      simp only [hfile]
      rfl
    obtain ⟨e', -, err, herr, hmap⟩ := exists_mapM_error ⟨e, he, _, hraises⟩
    obtain ⟨msg', rfl⟩ := hturn e' err herr
    exact ⟨msg', by rw [loadFrom, hmap]; rfl⟩

/-- The saved form of every forward index, with the file it goes to. -/
def files (im : IndexManager) : List (String × IdxFile) :=
  im.indexes.map fun e => (idxPath im.collection e.1, idxPayload e.1 e.2)

/-- The saved form of the reverse index. -/
def ridxPayload (im : IndexManager) : RidxFile := .payload (OrdDict.ofList im.reverse.toList)

theorem saveWrites_eq (im : IndexManager) :
    im.saveWrites = im.files.map (fun f => .replaceIdx f.1 f.2) ++
      [.replaceRidx (ridxPath im.collection) im.ridxPayload] := by
  rw [files, List.map_map]
  rfl

theorem applyAll_replaceIdx (l : List (String × IdxFile)) (d : Disk) :
    applyAll d (l.map fun f => DiskWrite.replaceIdx f.1 f.2) =
      { d with idx := (LastWins.map String IdxFile).run d.idx l } := by
  induction l generalizing d with
  | nil => rfl
  | cons f l ih => exact ih (d.write (.replaceIdx f.1 f.2))

/-- What a save does to the directory. -/
theorem applyAll_saveWrites (im : IndexManager) (d : Disk) :
    applyAll d im.saveWrites =
      { d with
        idx := (LastWins.map String IdxFile).run d.idx im.files
        ridx := Function.update d.ridx (ridxPath im.collection) (some im.ridxPayload) } := by
  rw [saveWrites_eq, applyAll_append, applyAll_replaceIdx]
  rfl

/-- What the first writes of a save do to the `.idx` files. -/
theorem idx_take_saveWrites (im : IndexManager) (n : ℕ) (d : Disk) :
    (applyAll d (im.saveWrites.take n)).idx =
      (LastWins.map String IdxFile).run d.idx (im.files.take n) := by
  rw [saveWrites_eq, List.take_append, ← List.map_take, applyAll_append, applyAll_replaceIdx]
  -- the `.ridx` file is written after them, or not at all
  rcases n - (im.files.map fun f => DiskWrite.replaceIdx f.1 f.2).length with _ | m
  · rfl
  · rw [List.take_succ_cons, List.take_nil]
    rfl

/-- A second save changes nothing. -/
theorem applyAll_saveWrites_twice (im : IndexManager) (d : Disk) :
    applyAll (applyAll d im.saveWrites) im.saveWrites = applyAll d im.saveWrites := by
  simp only [applyAll_saveWrites, LastWins.run_run, Function.update_idem]

/-- Saving indexes leaves the documents, the logs and the registry alone. -/
theorem sameData_saveWrites (im : IndexManager) (d : Disk) :
    d.SameData (applyAll d im.saveWrites) :=
  Disk.sameData_applyAll im.isIndex_saveWrites d

/-! ### What the indexes should say -/

/-- Each live id of a table, with the encoded key of its document. -/
def keyOf (spec : IndexSpec) (t : Table) (docId : String) : Option String :=
  (t.liveRow docId).map fun r => spec.key r.doc

/-- No index misses a live document. -/
def Complete (im : IndexManager) (t : Table) : Prop :=
  ∀ e ∈ im.indexes, InvertedIndex.Complete e.2 (keyOf e.1 t)

/-- Every index lists exactly the live documents. -/
def Exact (im : IndexManager) (t : Table) : Prop :=
  ∀ e ∈ im.indexes, InvertedIndex.Exact e.2 (keyOf e.1 t)

theorem keyOf_set (spec : IndexSpec) (t : Table) (docId : String) (v : Option Record) :
    keyOf spec (t.set docId v) =
      Function.update (keyOf spec t) docId (v.map fun r => spec.key r.doc) := by
  funext i
  rw [keyOf, Table.liveRow_set]
  by_cases hi : i = docId
  · simp [hi]
  · simp [hi, keyOf]

theorem Complete.addToIndexes {im : IndexManager} {t : Table} (h : im.Complete t)
    {docId : String} {document : Doc} {r : Record}
    (hr : ∀ field, document.get field = Doc.get r.doc field) :
    (im.addToIndexes docId document).Complete (t.set docId (some r)) := by
  intro e he
  obtain ⟨e₀, he₀, rfl⟩ := List.mem_map.mp he
  rw [keyOf_set, Option.map_some, ← e₀.1.key_congr hr]
  exact (h e₀ he₀).add _ _

theorem Complete.removeFromIndexes {im : IndexManager} {t : Table} (h : im.Complete t)
    (docId : String) (document : Doc) :
    (im.removeFromIndexes docId document).Complete (t.set docId none) := by
  intro e he
  obtain ⟨e₀, he₀, rfl⟩ := List.mem_map.mp he
  rw [keyOf_set]
  exact (h e₀ he₀).remove _ _

/-- Forgetting a document needs no removal. -/
theorem Complete.set_none {im : IndexManager} {t : Table} (h : im.Complete t)
    (docId : String) : im.Complete (t.set docId none) := by
  intro e he
  refine (h e he).mono fun i k hi => ?_
  rw [keyOf_set] at hi
  by_cases hid : i = docId
  · simp [hid] at hi
  · simpa [hid] using hi

theorem Exact.complete {im : IndexManager} {t : Table} (h : im.Exact t) : im.Complete t :=
  fun e he => (h e he).complete

theorem Exact.addToIndexes {im : IndexManager} {t : Table} (h : im.Exact t)
    {docId : String} {document : Doc} {r : Record} (hnew : t.liveRow docId = none)
    (hr : ∀ field, document.get field = Doc.get r.doc field) :
    (im.addToIndexes docId document).Exact (t.set docId (some r)) := by
  intro e he
  obtain ⟨e₀, he₀, rfl⟩ := List.mem_map.mp he
  rw [keyOf_set, Option.map_some, ← e₀.1.key_congr hr]
  refine (h e₀ he₀).add ?_ _
  rw [keyOf, hnew]
  rfl

theorem Exact.removeFromIndexes {im : IndexManager} {t : Table} (h : im.Exact t)
    {docId : String} {document : Doc} {r : Record} (hold : t.liveRow docId = some r)
    (hr : ∀ field, document.get field = Doc.get r.doc field) :
    (im.removeFromIndexes docId document).Exact (t.set docId none) := by
  intro e he
  obtain ⟨e₀, he₀, rfl⟩ := List.mem_map.mp he
  rw [keyOf_set, Option.map_none]
  refine (h e₀ he₀).remove ?_
  rw [keyOf, hold, Option.map_some, e₀.1.key_congr hr]

theorem Exact.set_none {im : IndexManager} {t : Table} (h : im.Exact t) {docId : String}
    (hdead : t.liveRow docId = none) : im.Exact (t.set docId none) := by
  intro e he
  -- a document that is not there has no key to forget
  have hkey : keyOf e.1 (t.set docId none) = keyOf e.1 t := by
    rw [keyOf_set, Option.map_none]
    refine Function.update_eq_self_iff.mpr ?_
    rw [keyOf, hdead]
    rfl
  rw [hkey]
  exact h e he

/-- Two tables with the same live rows are indexed the same way. -/
theorem keyOf_congr {t t' : Table} (h : ∀ docId, t.liveRow docId = t'.liveRow docId)
    (spec : IndexSpec) : keyOf spec t = keyOf spec t' := by
  funext i
  rw [keyOf, keyOf, h]

/-- Empty indexes are exact for a table without live rows. -/
theorem Exact.new {t : Table} (ht : ∀ docId, t.liveRow docId = none) (collection : String)
    (specs : List IndexSpec) : (new collection specs).Exact t := by
  intro e he
  obtain ⟨spec, -, rfl⟩ := List.mem_map.mp he
  refine InvertedIndex.Exact.empty fun i => ?_
  rw [keyOf, ht]
  rfl

@[simp] theorem specs_new (collection : String) (specs : List IndexSpec) :
    (new collection specs).specs = specs := by
  simp [new, IndexManager.specs, Function.comp_def]

@[simp] theorem specs_addToIndexes (im : IndexManager) (docId : String) (document : Doc) :
    (im.addToIndexes docId document).specs = im.specs := by
  simp [addToIndexes, IndexManager.specs, Function.comp_def]

@[simp] theorem specs_removeFromIndexes (im : IndexManager) (docId : String)
    (document : Doc) : (im.removeFromIndexes docId document).specs = im.specs := by
  simp [removeFromIndexes, IndexManager.specs, Function.comp_def]

theorem specs_loaded (im : IndexManager) (env : Env) (disk : Disk) :
    (im.loaded env disk).specs = im.specs := by
  simp only [loaded, IndexManager.specs, List.map_map]
  refine List.map_congr_left fun e _ => ?_
  simp only [Function.comp_apply]
  split <;> rfl

@[simp] theorem specs_replaceInIndexes (im : IndexManager) (docId : String) (old : Option Doc)
    (document : Doc) : (im.replaceInIndexes docId old document).specs = im.specs := by
  cases old <;> simp [IndexManager.replaceInIndexes]

@[simp] theorem specs_dropFromIndexes (im : IndexManager) (docId : String) (old : Option Doc) :
    (im.dropFromIndexes docId old).specs = im.specs := by
  cases old <;> simp [IndexManager.dropFromIndexes]

@[simp] theorem collection_replaceInIndexes (im : IndexManager) (docId : String)
    (old : Option Doc) (document : Doc) :
    (im.replaceInIndexes docId old document).collection = im.collection := by
  cases old <;> rfl

@[simp] theorem collection_dropFromIndexes (im : IndexManager) (docId : String)
    (old : Option Doc) : (im.dropFromIndexes docId old).collection = im.collection := by
  cases old <;> rfl

/-- Filing lines with distinct ids into empty indexes makes them exact for the
table of the lines. -/
theorem exact_rebuild_lines (im : IndexManager) {lines : List Record}
    (hnd : (lines.map Record.docId).Nodup)
    (hlines : ∀ r ∈ lines, (∃ docId, r.docId = some docId) ∧ r.slot = some r) :
    (im.rebuild lines).Exact (DocumentStore.table lines) := by
  induction lines using List.reverseRecOn with
  | nil => exact Exact.new (fun _ => rfl) _ _
  | append_singleton lines r ih =>
      obtain ⟨⟨i, hi⟩, hr⟩ := hlines r (by simp)
      rw [List.map_append, List.map_singleton, List.nodup_append] at hnd
      have hold : (im.rebuild lines).Exact (DocumentStore.table lines) :=
        ih hnd.1 fun r' hr' => hlines r' (by simp [hr'])
      -- the id is new, so it is not live yet
      have hnew : (DocumentStore.table lines).liveRow i = none := by
        have hnot : i ∉ (DocumentStore.table lines).keys := fun hm =>
          hnd.2.2 _ (DocumentStore.mem_keys_table.mp hm) _ (by simp [hi]) rfl
        rw [Table.liveRow, OrdDict.get?_eq_none_iff.mpr hnot]
        rfl
      rw [DocumentStore.table_concat, DocumentStore.scanStep_of_docId hi, hr]
      have hadd : im.rebuild (lines ++ [r]) = (im.rebuild lines).addToIndexes i r.doc := by
        simp [rebuild, hi]
      rw [hadd]
      exact hold.addToIndexes hnew fun _ => rfl

/-- **Rebuilding is exact.**  Filing the rows of a well-formed table into empty
indexes makes them exact for the table. -/
theorem exact_rebuild (im : IndexManager) {t : Table} (h : t.WF) :
    (im.rebuild (DocumentStore.rows t)).Exact t := by
  have hrows := im.exact_rebuild_lines (Table.nodup_docId_rows h) fun r hr => by
    obtain ⟨i, hi⟩ := Table.mem_rows.mp hr
    obtain ⟨hid, hd⟩ := h i r (Table.liveRow_eq_some_iff.mp hi)
    exact ⟨⟨i, hid⟩, Record.slot_eq_some_iff.mpr ⟨rfl, hd⟩⟩
  rw [DocumentStore.table_rows h] at hrows
  intro e he
  rw [← keyOf_congr t.liveRow_live]
  exact hrows e he

/-- What a rebuild makes: for each spec the rows filed one after another, and an
empty reverse index. -/
theorem rebuild_eq (im : IndexManager) (documents : List Record) :
    im.rebuild documents =
      ⟨im.collection, im.specs.map fun spec => (spec, documents.foldl
        (fun idx r => idx.add (spec.key r.doc) (r.docId.getD "")) ∅), ∅⟩ := by
  induction documents using List.reverseRecOn with
  | nil => rfl
  | append_singleton documents r ih =>
      have hadd : im.rebuild (documents ++ [r]) =
          (im.rebuild documents).addToIndexes (r.docId.getD "") r.doc := by
        simp [rebuild]
      rw [hadd, ih]
      simp [addToIndexes, Function.comp_def]

theorem collection_rebuild (im : IndexManager) (documents : List Record) :
    (im.rebuild documents).collection = im.collection := by
  rw [rebuild_eq]

theorem specs_rebuild (im : IndexManager) (documents : List Record) :
    (im.rebuild documents).specs = im.specs := by
  induction documents using List.reverseRecOn with
  | nil => simp [rebuild]
  | append_singleton documents r ih =>
      rw [rebuild, List.foldl_concat, specs_addToIndexes]
      exact ih

end IndexManager

end JsonpySql
