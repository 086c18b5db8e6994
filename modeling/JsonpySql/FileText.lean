/-
JsonpySql/FileText.lean

The database directory as bytes.

Every file is text in UTF-8: `.jsonl` and `.wal` files have one JSON object on
each line, the saved indexes are one object on one line, and the manifest is
one object over several.  The functions that read them are those of the
library: they decode the bytes, split them into lines, parse, and name the
error they raise.

`TextDisk.Holds` says that a directory of bytes holds a directory of records
(`Disk`): whatever is read from the one is what the other has.  Every atomic
write keeps the two together (`TextDisk.holds_write`), so everything proved
about runs and crash points over records is about the bytes.
-/
import JsonpySql.IndexManager
import JsonpySql.JsonScan
import JsonpySql.Planner
import JsonpySql.StoredKeys
import JsonpySql.TextFile
import JsonpySql.Wal

namespace JsonpySql

open PyJson

/-- What reading a file raises: an exception of the library, the
`UnicodeDecodeError` that nothing in it catches, or, for a value of a shape it
never writes, whatever the use of that value raises. -/
inductive TextErr
  | raised (e : PyErr)
  | unicodeDecode
  | foreign
deriving DecidableEq

/-! ### Lines of a document store -/

namespace Record

/-- The row a parsed line is. -/
def ofVal : PyVal → Option Record
  | .dict es =>
      if h : (es.map Prod.fst).Nodup then
        let doc : Doc := ⟨es, h⟩
        if hn : doc.Native then
          match hid : doc.get? "_id" with
          | none => some ⟨doc, hn, fun v hv => by rw [hid] at hv; cases hv⟩
          | some .none => some ⟨doc, hn, fun v hv => by rw [hid] at hv; cases hv; exact .inl rfl⟩
          | some (.str s) =>
              some ⟨doc, hn, fun v hv => by rw [hid] at hv; cases hv; exact .inr ⟨s, rfl⟩⟩
          | some _ => none
        else none
      else none
  | _ => none

theorem ofVal_doc (r : Record) : ofVal (.dict r.doc.entries) = some r := by
  unfold ofVal
  dsimp only
  rw [dif_pos r.doc.nodup, dif_pos (show Doc.Native ⟨r.doc.entries, r.doc.nodup⟩ from r.native)]
  split
  · rfl
  · rfl
  · rfl
  · next h₁ h₂ hv =>
    exfalso
    rcases r.id_str _ hv with rfl | ⟨s, rfl⟩
    · exact h₁ rfl
    · exact h₂ s rfl

/-- The line of a row, as `_write_line` and `compact` write it. -/
def text (r : Record) : List Char := dumps .compact (.dict r.doc.entries)

/-- No mapping in the row has a key twice. -/
def Keyed (r : Record) : Prop := (PyVal.dict r.doc.entries).keyed = true

instance (r : Record) : Decidable r.Keyed := inferInstanceAs (Decidable (_ = _))

end Record

namespace DocumentStore

/-- `_parse`. -/
def parse (path : String) (line : List Char) : Except TextErr Record :=
  match loads line with
  | .error (.decode msg rest) =>
      .error (.raised (.storageError
        ("Corrupt line in " ++ path ++ ": " ++ decodeErrorStr line msg rest)))
  | .error .fuel => .error .foreign
  | .ok v =>
      match Record.ofVal v with
      | none => .error .foreign
      | some r => .ok r

/-- `_iter_lines` with `_parse` on every line it yields. -/
def readText (path : String) (bytes : List UInt8) : Except TextErr (List Record) :=
  match readLines bytes with
  | none => .error .unicodeDecode
  | some ls => (ls.filter fun l => l ≠ []).mapM (parse path)

end DocumentStore

/-- A document as a value, through JSON and back. -/
theorem viaJson_dict (d : Doc) :
    (PyVal.dict d.entries).viaJson = .dict (Doc.viaJson d).entries := by
  rw [PyVal.viaJson, PyVal.viaJsonEntries_eq_map]
  rfl

/-- What is written for a row is parsed as the row. -/
theorem DocumentStore.parse_text {r : Record} (hr : r.Keyed) (path : String) :
    DocumentStore.parse path r.text = .ok r := by
  have hnative : (PyVal.dict r.doc.entries).viaJson = .dict r.doc.entries := by
    rw [viaJson_dict, r.native]
  unfold DocumentStore.parse Record.text
  rw [loads_dumps hr, hnative]
  dsimp only
  rw [Record.ofVal_doc]

theorem Record.text_oneLine (r : Record) : OneLine r.text := dumps_compact_oneLine _

theorem dumps_ne_nil (es : List (String × PyVal)) : dumps .compact (.dict es) ≠ [] := by
  obtain ⟨c, t, h, -⟩ := opens_write .compact 0 (.dict es)
  rw [dumps, h]
  exact List.cons_ne_nil c t

theorem Record.text_ne_nil (r : Record) : r.text ≠ [] := dumps_ne_nil r.doc.entries

/-! ### Lines of a log -/

def Op.name : Op → String
  | .insert => "insert"
  | .update => "update"
  | .delete => "delete"

/-- `op in ("insert", "update", "delete")`. -/
def Op.ofName (s : String) : Option Op :=
  if s = "insert" then some .insert
  else if s = "update" then some .update
  else if s = "delete" then some .delete
  else none

@[simp] theorem Op.ofName_name (op : Op) : Op.ofName op.name = some op := by cases op <;> rfl

namespace WALEntry

/-- `to_dict`. -/
def toDict (e : WALEntry) : PyVal :=
  .dict [("op", .str e.op.name), ("collection", .str e.collection), ("doc_id", .str e.docId),
    ("document", match e.document with | none => .none | some d => .dict d.entries)]

def text (e : WALEntry) : List Char := dumps .compact e.toDict

def Keyed (e : WALEntry) : Prop := e.toDict.keyed = true

instance (e : WALEntry) : Decidable e.Keyed := inferInstanceAs (Decidable (_ = _))

/-- A missing key, as `from_dict` reports it. -/
def missingKey (key : String) (data : PyVal) : WalLine :=
  .corrupt ("Malformed WAL entry (missing key " ++ strRepr key ++ "): " ++ data.repr)

/-- The document of a line: a mapping or `None`. -/
def documentOf : PyVal → Option (Option Doc)
  | .none => some none
  | .dict es => if h : (es.map Prod.fst).Nodup then some (some ⟨es, h⟩) else none
  | _ => none

/-- `from_dict`: the keys are looked for in this order, and only the operation
is checked.  A value that is no mapping cannot be subscripted with a key. -/
def fromDict (data : PyVal) : Option WalLine :=
  match data with
  | .dict es =>
      match es.lookup "op", es.lookup "collection", es.lookup "doc_id" with
      | none, _, _ => some (missingKey "op" data)
      | _, none, _ => some (missingKey "collection" data)
      | _, _, none => some (missingKey "doc_id" data)
      | some op, some collection, some docId =>
          match op with
          | .str s =>
              match Op.ofName s with
              | none => some (.corrupt ("Unknown WAL op " ++ op.repr))
              | some op =>
                  match collection, docId, documentOf ((es.lookup "document").getD .none) with
                  | .str c, .str i, some document => some (.entry ⟨op, c, i, document⟩)
                  | _, _, _ => none
          | _ => some (.corrupt ("Unknown WAL op " ++ op.repr))
  | data =>
      match data.getItem (.str "op") with
      | .error (.typeError msg) => some (.foreign msg)
      | _ => none

end WALEntry

namespace WAL

/-- One line of the loop of `read_entries`. -/
def parse (line : List Char) : Option WalLine :=
  match loads line with
  | .error (.decode msg rest) => some (.corrupt (decodeErrorStr line msg rest))
  | .error .fuel => none
  | .ok data => WALEntry.fromDict data

/-- The loop of `read_entries` over the lines of a text, blank ones included. -/
def parseText (path : String) : List (List Char) → ℕ → OrdDict (String × String) WALEntry →
    Except TextErr (OrdDict (String × String) WALEntry)
  | [], _, entriesMap => .ok entriesMap
  | l :: ls, lineno, entriesMap =>
      if l = [] then parseText path ls (lineno + 1) entriesMap
      else
        match parse l with
        | none => .error .foreign
        | some (.corrupt msg) =>
            .error (.raised (.walReplayError ("Corrupt WAL entry at line " ++ toString lineno ++
              " in " ++ path ++ ": " ++ msg)))
        | some (.foreign msg) => .error (.raised (.typeError msg))
        | some (.undecodable msg) => .error (.raised (.unicodeDecodeError msg))
        | some (.entry e) => parseText path ls (lineno + 1) (entriesMap.set e.target e)

/-- `read_entries`. -/
def readText (path : String) (bytes : List UInt8) : Except TextErr (List WALEntry) :=
  match readLines bytes with
  | none => .error .unicodeDecode
  | some ls =>
      match parseText path ls 1 OrdDict.empty with
      | .error e => .error e
      | .ok entriesMap => .ok entriesMap.values

end WAL

/-- An entry as a value, through JSON and back. -/
theorem WALEntry.viaJson_toDict (e : WALEntry) : e.toDict.viaJson = e.viaJson.toDict := by
  rcases e with ⟨op, c, i, _ | d⟩
  · rfl
  · have hd := viaJson_dict d
    simp only [WALEntry.toDict, WALEntry.viaJson, PyVal.viaJson, PyVal.viaJsonEntries,
      Option.map_some] at hd ⊢
    simp only [hd, jsonDefault]

/-- What is written for an entry is parsed as the entry, its document as JSON
leaves it. -/
theorem WAL.parse_text {e : WALEntry} (he : e.Keyed) :
    WAL.parse e.text = some (.entry e.viaJson) := by
  unfold WAL.parse WALEntry.text
  rw [loads_dumps he, WALEntry.viaJson_toDict]
  rcases e with ⟨op, c, i, _ | d⟩
  · simp [WALEntry.viaJson, WALEntry.toDict, WALEntry.fromDict, WALEntry.documentOf,
      List.lookup_cons]
  · simp [WALEntry.viaJson, WALEntry.toDict, WALEntry.fromDict, WALEntry.documentOf,
      List.lookup_cons, OrdDict.nodup]

theorem WALEntry.text_oneLine (e : WALEntry) : OneLine e.text ∧ e.text ≠ [] :=
  ⟨dumps_compact_oneLine _, dumps_ne_nil _⟩

theorem WALEntry.text_viaJson (e : WALEntry) : e.viaJson.text = e.text := by
  rw [WALEntry.text, ← WALEntry.viaJson_toDict, dumps_viaJson, WALEntry.text]

/-- The line of a stored document is the text of the document itself. -/
theorem Record.text_ofDoc (docId : String) (document : Doc) :
    (Record.ofDoc docId document).text =
      dumps .compact (.dict (document.set "_id" (.str docId)).entries) := by
  rw [Record.text, ← dumps_viaJson (.dict (document.set "_id" (.str docId)).entries), viaJson_dict]
  rfl

/-! ### Saved indexes and the manifest -/

/-- A list of strings, if the value is one. -/
def stringsOf : PyVal → Option (List String)
  | .list xs => xs.mapM fun x => match x with | .str s => some s | _ => none
  | _ => none

/-- Keys with the ids listed under them. -/
def idLists (es : List (String × PyVal)) : Option (List (String × List String)) :=
  es.mapM fun e => (stringsOf e.2).map (e.1, ·)

def idsVal (ids : List String) : PyVal := .list (ids.map .str)

def idsDict (data : OrdDict String (List String)) : PyVal :=
  .dict (data.entries.map fun e => (e.1, idsVal e.2))

namespace IdxFile

/-- What `_write_idx` hands to `_write_json`; only a payload is ever written. -/
def val : IdxFile → PyVal
  | .payload fields unique data =>
      .dict [("fields", idsVal fields), ("unique", .bool unique), ("data", idsDict data)]
  | _ => .none

def text (f : IdxFile) : List Char := dumps .compact f.val

/-- `_read_json` and the part of `_read_idx` that looks at the value: the names
of the fields and the flag are not looked at. -/
def ofText (cs : List Char) : Option IdxFile :=
  match loads cs with
  | .error (.decode msg rest) => some (.corrupt (decodeErrorStr cs msg rest))
  | .error .fuel => none
  | .ok (.dict es) =>
      match (es.lookup "data").getD (.dict []) with
      | .dict ds =>
          match idLists ds with
          | some data => some (.payload
              (((es.lookup "fields").bind stringsOf).getD [])
              (match es.lookup "unique" with | some (.bool b) => b | _ => false)
              (OrdDict.ofList data))
          | none => none
      | _ => some .badData
  | .ok _ => none

end IdxFile

namespace RidxFile

def val : RidxFile → PyVal
  | .payload data => idsDict data
  | _ => .none

def text (f : RidxFile) : List Char := dumps .compact f.val

/-- `_read_ridx`. -/
def ofText (cs : List Char) : Option RidxFile :=
  match loads cs with
  | .error (.decode msg rest) => some (.corrupt (decodeErrorStr cs msg rest))
  | .error .fuel => none
  | .ok (.dict es) => (idLists es).map fun data => .payload (OrdDict.ofList data)
  | .ok _ => none

end RidxFile

/-- The specification of an index, as the manifest has it. -/
def specVal (spec : IndexSpec) : PyVal :=
  .dict [("fields", idsVal spec.fields), ("unique", .bool spec.unique)]

def specOf : PyVal → Option IndexSpec
  | .dict es =>
      match (es.lookup "fields").bind stringsOf, es.lookup "unique" with
      | some fields, some (.bool unique) => some ⟨fields, unique⟩
      | _, _ => none
  | _ => none

/-- The collections of the manifest, as `_load_manifest` reads them. -/
def specLists (es : List (String × PyVal)) : Option (List (String × List IndexSpec)) :=
  es.mapM fun e =>
    match e.2 with
    | .list xs => (xs.mapM specOf).map (e.1, ·)
    | _ => none

namespace ManifestFile

def val : ManifestFile → PyVal
  | .payload data => .dict (data.entries.map fun e => (e.1, .list (e.2.map specVal)))
  | _ => .none

def text (f : ManifestFile) : List Char := dumps (.indented 2) f.val

/-- The value `_load_manifest` reads. -/
def ofText (cs : List Char) : Option ManifestFile :=
  match loads cs with
  | .error (.decode msg rest) => some (.corrupt (decodeErrorStr cs msg rest))
  | .error .fuel => none
  | .ok (.dict es) => (specLists es).map fun data => .payload (OrdDict.ofList data)
  | .ok _ => none

end ManifestFile

/-! ### Reading them back -/

/-- A reader that undoes a writer reads back a list of what it wrote. -/
theorem mapM_map_some {α β γ : Type*} {f : β → Option γ} {g : α → β} {h : α → γ}
    (hf : ∀ a, f (g a) = some (h a)) (l : List α) : (l.map g).mapM f = some (l.map h) := by
  induction l with
  | nil => rfl
  | cons a l ih => simp [hf, ih]

@[simp] theorem viaJson_idsVal (ids : List String) : (idsVal ids).viaJson = idsVal ids := by
  rw [idsVal, PyVal.viaJson, PyVal.viaJsonList_eq_map, List.map_map]
  rfl

@[simp] theorem stringsOf_idsVal (ids : List String) : stringsOf (idsVal ids) = some ids := by
  have h := mapM_map_some (f := fun x : PyVal => match x with | .str s => some s | _ => none)
    (g := PyVal.str) (h := id) (fun _ => rfl) ids
  rw [List.map_id] at h
  exact h

theorem keyedList_str (ids : List String) : PyVal.keyedList (ids.map .str) = true := by
  induction ids with
  | nil => rfl
  | cons i ids ih => simpa [PyVal.keyedList, PyVal.keyed] using ih

theorem keyedEntries_map {α : Type*} {f : α → String × PyVal}
    (hf : ∀ a, (f a).2.keyed = true) (l : List α) : PyVal.keyedEntries (l.map f) = true := by
  induction l with
  | nil => rfl
  | cons a l ih => simp [PyVal.keyedEntries, hf a, ih]

/-- A mapping made of a dictionary by a writer of its values. -/
theorem keyed_dict_map {α : Type*} (data : OrdDict String α) {g : α → PyVal}
    (hg : ∀ a, (g a).keyed = true) :
    (PyVal.dict (data.entries.map fun e => (e.1, g e.2))).keyed = true := by
  have hkeys : (data.entries.map fun e => (e.1, g e.2)).map Prod.fst = data.keys := by
    rw [List.map_map]
    rfl
  simp only [PyVal.keyed, hkeys, data.keys_nodup, decide_true, Bool.true_and]
  exact keyedEntries_map (fun e => hg e.2) data.entries

theorem viaJson_dict_map {α : Type*} (data : OrdDict String α) {g : α → PyVal}
    (hg : ∀ a, (g a).viaJson = g a) :
    (PyVal.dict (data.entries.map fun e => (e.1, g e.2))).viaJson =
      .dict (data.entries.map fun e => (e.1, g e.2)) := by
  rw [PyVal.viaJson, PyVal.viaJsonEntries_eq_map, List.map_map]
  simp [Function.comp_def, hg]

theorem keyed_idsVal (ids : List String) : (idsVal ids).keyed = true := keyedList_str ids

theorem idLists_idsDict (data : OrdDict String (List String)) :
    idLists (data.entries.map fun e => (e.1, idsVal e.2)) = some data.entries := by
  have h := mapM_map_some (f := fun e : String × PyVal => (stringsOf e.2).map (e.1, ·))
    (g := fun e : String × List String => (e.1, idsVal e.2)) (h := id) (by simp) data.entries
  rw [List.map_id] at h
  exact h

@[simp] theorem ofList_entries {α : Type*} (data : OrdDict String α) :
    OrdDict.ofList data.entries = data :=
  OrdDict.ext_entries (OrdDict.entries_ofList_of_nodup data.nodup)

@[simp] theorem viaJson_idsDict (data : OrdDict String (List String)) :
    (idsDict data).viaJson = idsDict data :=
  viaJson_dict_map data viaJson_idsVal

theorem keyed_idsDict (data : OrdDict String (List String)) : (idsDict data).keyed = true :=
  keyed_dict_map data keyed_idsVal

/-- A saved forward index is read back. -/
theorem IdxFile.ofText_text (fields : List String) (unique : Bool)
    (data : OrdDict String (List String)) :
    IdxFile.ofText (IdxFile.payload fields unique data).text =
      some (.payload fields unique data) := by
  have hk : (IdxFile.payload fields unique data).val.keyed = true := by
    simp [IdxFile.val, PyVal.keyed, PyVal.keyedEntries, keyed_idsDict, keyed_idsVal]
  have hvia : (IdxFile.payload fields unique data).val.viaJson =
      (IdxFile.payload fields unique data).val := by
    simp [IdxFile.val, PyVal.viaJson, PyVal.viaJsonEntries, jsonDefault]
  unfold IdxFile.ofText IdxFile.text
  rw [loads_dumps hk, hvia]
  simp [IdxFile.val, List.lookup_cons, idsDict, idLists_idsDict]

/-- A saved reverse index is read back. -/
theorem RidxFile.ofText_text (data : OrdDict String (List String)) :
    RidxFile.ofText (RidxFile.payload data).text = some (.payload data) := by
  have hval : (RidxFile.payload data).val = idsDict data := rfl
  unfold RidxFile.ofText RidxFile.text
  rw [hval, loads_dumps (keyed_idsDict data), viaJson_idsDict]
  simp [idsDict, idLists_idsDict]

@[simp] theorem viaJson_specVal (spec : IndexSpec) : (specVal spec).viaJson = specVal spec := by
  simp [specVal, PyVal.viaJson, PyVal.viaJsonEntries, jsonDefault]

@[simp] theorem specOf_specVal (spec : IndexSpec) : specOf (specVal spec) = some spec := by
  simp [specOf, specVal, List.lookup_cons]

theorem viaJson_specs (specs : List IndexSpec) :
    (PyVal.list (specs.map specVal)).viaJson = .list (specs.map specVal) := by
  rw [PyVal.viaJson, PyVal.viaJsonList_eq_map, List.map_map]
  simp [Function.comp_def]

theorem keyed_specs (specs : List IndexSpec) :
    (PyVal.list (specs.map specVal)).keyed = true := by
  change PyVal.keyedList (specs.map specVal) = true
  induction specs with
  | nil => rfl
  | cons spec specs ih =>
      have hspec : (specVal spec).keyed = true := by
        simp [specVal, PyVal.keyed, PyVal.keyedEntries, keyed_idsVal]
      simp [PyVal.keyedList, hspec, ih]

/-- The manifest is read back. -/
theorem ManifestFile.ofText_text (data : OrdDict String (List IndexSpec)) :
    ManifestFile.ofText (ManifestFile.payload data).text = some (.payload data) := by
  have hread : specLists (data.entries.map fun e => (e.1, .list (e.2.map specVal))) =
      some data.entries := by
    have h := mapM_map_some (f := fun e : String × PyVal =>
        match e.2 with
        | .list xs => (xs.mapM specOf).map (e.1, ·)
        | _ => none)
      (g := fun e : String × List IndexSpec => (e.1, .list (e.2.map specVal))) (h := id)
      (by simp [mapM_map_some specOf_specVal]) data.entries
    rw [List.map_id] at h
    exact h
  have hval : (ManifestFile.payload data).val =
      .dict (data.entries.map fun e => (e.1, .list (e.2.map specVal))) := rfl
  unfold ManifestFile.ofText ManifestFile.text
  rw [hval, loads_dumps (keyed_dict_map data keyed_specs), viaJson_dict_map data viaJson_specs]
  simp [hread]

/-! ### The directory of bytes -/

/-- The database directory. -/
structure TextDisk where
  manifest : Option (List UInt8)
  jsonl : String → Option (List UInt8)
  idx : String → Option (List UInt8)
  ridx : String → Option (List UInt8)
  wal : OrdDict String (List UInt8)

/-- The bytes of a line of a log. -/
def WalLine.text : WalLine → List Char
  | .entry e => e.text
  -- no such line is ever written
  | _ => []

/-- What the atomic writes do to the bytes. -/
def TextDisk.write (d : TextDisk) : DiskWrite → TextDisk
  | .touchJsonl file => { d with jsonl := Function.update d.jsonl file (some []) }
  | .appendJsonl file line => { d with
      jsonl := Function.update d.jsonl file
        (some ((d.jsonl file).getD [] ++ utf8 (lineText line.text))) }
  | .replaceJsonl file lines => { d with
      jsonl := Function.update d.jsonl file
        (some (utf8 ((lines.map Record.text).flatMap lineText))) }
  | .unlinkJsonl file => { d with jsonl := Function.update d.jsonl file none }
  | .replaceIdx file content => { d with
      idx := Function.update d.idx file (some (utf8 content.text)) }
  | .unlinkIdx file => { d with idx := Function.update d.idx file none }
  | .replaceRidx file content => { d with
      ridx := Function.update d.ridx file (some (utf8 content.text)) }
  | .unlinkRidx file => { d with ridx := Function.update d.ridx file none }
  | .replaceManifest content => { d with manifest := some (utf8 content.text) }
  | .appendWal file line => { d with
      wal := d.wal.set file ((d.wal.get? file).getD [] ++ utf8 (lineText line.text)) }
  | .unlinkWal file => { d with wal := d.wal.erase file }

instance : Storage TextDisk DiskWrite := ⟨TextDisk.write⟩

/-- What is known of the lines a client writes: of rows, and of entries of logs.
Their mappings have distinct keys, tombstones are such rows, and so is the row an
entry is applied as. -/
structure LineKind where
  row : Record → Prop
  entry : WALEntry → Prop
  keyed_row : ∀ {r}, row r → r.Keyed
  keyed_entry : ∀ {e}, entry e → e.Keyed
  tombstone : ∀ docId, row (Record.tombstone docId)
  applied : ∀ {e}, entry e → row (Record.ofDoc e.docId (e.document.getD OrdDict.empty))
  viaJson : ∀ {e}, entry e → entry e.viaJson

/-- What the library writes: whole payloads, and lines of a kind. -/
def DiskWrite.Written (K : LineKind) : DiskWrite → Prop
  | .appendJsonl _ line => K.row line
  | .replaceJsonl _ lines => ∀ r ∈ lines, K.row r
  | .replaceIdx _ content => ∃ fields unique data, content = .payload fields unique data
  | .replaceRidx _ content => ∃ data, content = .payload data
  | .replaceManifest content => ∃ data, content = .payload data
  | .appendWal _ line => ∃ e : WALEntry, line = .entry e.viaJson ∧ K.entry e
  | _ => True

/-- A file of whole lines, each parsed to a row. -/
def Framed {α : Type*} (parse : List Char → Option α) (bytes : List UInt8) (rows : List α) :
    Prop :=
  ∃ ls : List (List Char), bytes = utf8 (ls.flatMap lineText) ∧ ls.map parse = rows.map some ∧
    ∀ l ∈ ls, OneLine l ∧ l ≠ []

/-- A row as the parser of a store makes it of a line; the path is only used by
its messages. -/
def Record.ofLine (line : List Char) : Option Record := (DocumentStore.parse "" line).toOption

/-- Read a file of one value. -/
def readAll {α : Type*} (ofText : List Char → Option α) (bytes : List UInt8) : Option α :=
  (decodeUtf8 bytes).bind fun cs => ofText (universalNewlines cs)

/-- The bytes hold the records. -/
structure TextDisk.Holds (td : TextDisk) (d : Disk) : Prop where
  manifest : Option.Rel (fun b f => readAll ManifestFile.ofText b = some f) td.manifest d.manifest
  jsonl : ∀ file, Option.Rel (Framed Record.ofLine) (td.jsonl file) (d.jsonl file)
  idx : ∀ file, Option.Rel (fun b f => readAll IdxFile.ofText b = some f) (td.idx file) (d.idx file)
  ridx : ∀ file, Option.Rel (fun b f => readAll RidxFile.ofText b = some f) (td.ridx file)
    (d.ridx file)
  wal_keys : td.wal.keys = d.wal.keys
  wal : ∀ file, Option.Rel (Framed WAL.parse) (td.wal.get? file) (d.wal.get? file)

/-! ### Whole lines -/

section Framed

variable {α : Type*} {parse : List Char → Option α} {bytes : List UInt8} {rows : List α}

theorem framed_nil : Framed parse [] ([] : List α) := ⟨[], rfl, rfl, by simp⟩

theorem Framed.append (h : Framed parse bytes rows) {l : List Char} {r : α}
    (hl : OneLine l ∧ l ≠ []) (hr : parse l = some r) :
    Framed parse (bytes ++ utf8 (lineText l)) (rows ++ [r]) := by
  obtain ⟨ls, rfl, hrows, hls⟩ := h
  refine ⟨ls ++ [l], ?_, ?_, ?_⟩
  · rw [← utf8_append, List.flatMap_append, List.flatMap_singleton]
  · simp [hrows, hr]
  · intro l' hl'
    rcases List.mem_append.mp hl' with h' | h'
    · exact hls l' h'
    · rw [List.mem_singleton] at h'
      exact h' ▸ hl

/-- Rows written one after another. -/
theorem framed_map {text : α → List Char} (hr : ∀ r ∈ rows, parse (text r) = some r)
    (hl : ∀ r, OneLine (text r) ∧ text r ≠ []) :
    Framed parse (utf8 ((rows.map text).flatMap lineText)) rows := by
  refine ⟨rows.map text, rfl, ?_, ?_⟩
  · rw [List.map_map]
    exact List.map_congr_left hr
  · intro l h
    obtain ⟨r, -, rfl⟩ := List.mem_map.mp h
    exact hl r

end Framed

theorem Record.ofLine_eq_some_iff {l : List Char} {r : Record} (path : String) :
    Record.ofLine l = some r ↔ DocumentStore.parse path l = .ok r := by
  unfold Record.ofLine DocumentStore.parse
  rcases loads l with ⟨msg, rest⟩ | v
  · simp [Except.toOption]
  · simp [Except.toOption]
  · dsimp only
    cases Record.ofVal v <;> simp [Except.toOption]

/-- Parsing the lines of a file whose rows are known. -/
theorem mapM_parse {ls : List (List Char)} {rows : List Record} (path : String)
    (h : ls.map Record.ofLine = rows.map some) :
    ls.mapM (DocumentStore.parse path) = .ok rows := by
  induction ls generalizing rows with
  | nil =>
      cases rows with
      | nil => rfl
      | cons r rows => simp at h
  | cons l ls ih =>
      cases rows with
      | nil => simp at h
      | cons r rows =>
          simp only [List.map_cons, List.cons.injEq] at h
          rw [List.mapM_cons, (Record.ofLine_eq_some_iff path).mp h.1, ih h.2]
          rfl

/-- Reading the bytes gives the rows they hold. -/
theorem Framed.readText {bytes : List UInt8} {rows : List Record}
    (h : Framed Record.ofLine bytes rows) (path : String) :
    DocumentStore.readText path bytes = .ok rows := by
  obtain ⟨ls, rfl, hrows, hls⟩ := h
  have hfilter : ls.filter (fun l => l ≠ []) = ls :=
    List.filter_eq_self.mpr fun l hl => by simpa using (hls l hl).2
  unfold DocumentStore.readText
  rw [readLines_flatMap fun l hl => (hls l hl).1]
  dsimp only
  rw [hfilter, mapM_parse path hrows]

/-- The loop of `read_entries` over the lines of a text is the one over the
lines of the record. -/
theorem parseText_eq (path : String) {ls : List (List Char)} {lines : List WalLine}
    (h : ls.map WAL.parse = lines.map some) (hne : ∀ l ∈ ls, l ≠ []) (lineno : ℕ)
    (m : OrdDict (String × String) WALEntry) :
    WAL.parseText path ls lineno m = (WAL.parseLines path lines lineno m).mapError .raised := by
  induction ls generalizing lines lineno m with
  | nil =>
      cases lines with
      | nil => rfl
      | cons r rows => simp at h
  | cons l ls ih =>
      cases lines with
      | nil => simp at h
      | cons line lines =>
          simp only [List.map_cons, List.cons.injEq] at h
          rw [WAL.parseText, if_neg (hne l (by simp)), h.1]
          cases line with
          | corrupt msg | foreign msg | undecodable msg => rfl
          | entry e => exact ih h.2 (fun l' hl' => hne l' (by simp [hl'])) _ _

/-- Reading a log gives the entries its lines hold, or the error of its first
corrupt one. -/
theorem Framed.readText_wal {bytes : List UInt8} {lines : List WalLine}
    (h : Framed WAL.parse bytes lines) (path : String) :
    WAL.readText path bytes =
      ((WAL.parseLines path lines 1 OrdDict.empty).map OrdDict.values).mapError .raised := by
  obtain ⟨ls, rfl, hrows, hls⟩ := h
  unfold WAL.readText
  rw [readLines_flatMap fun l hl => (hls l hl).1]
  dsimp only
  rw [parseText_eq path hrows fun l hl => (hls l hl).2]
  cases WAL.parseLines path lines 1 OrdDict.empty <;> rfl

/-! ### Writes keep bytes and records together -/

theorem universalNewlines_eq_self {cs : List Char} (h : ∀ c ∈ cs, c ≠ '\r') :
    universalNewlines cs = cs := by
  induction cs with
  | nil => rfl
  | cons c cs ih =>
      rw [universalNewlines_cons (h c (by simp)), ih fun d hd => h d (by simp [hd])]

theorem readAll_utf8 {α : Type*} {ofText : List Char → Option α} {cs : List Char}
    (h : ∀ c ∈ cs, c ≠ '\r') : readAll ofText (utf8 cs) = ofText cs := by
  rw [readAll, decodeUtf8_utf8, Option.bind_some, universalNewlines_eq_self h]

theorem IdxFile.readAll_text (fields : List String) (unique : Bool)
    (data : OrdDict String (List String)) :
    readAll IdxFile.ofText (utf8 (IdxFile.payload fields unique data).text) =
      some (.payload fields unique data) :=
  (readAll_utf8 fun c hc => (dumps_compact_oneLine _ c hc).2).trans (IdxFile.ofText_text ..)

theorem RidxFile.readAll_text (data : OrdDict String (List String)) :
    readAll RidxFile.ofText (utf8 (RidxFile.payload data).text) = some (.payload data) :=
  (readAll_utf8 fun c hc => (dumps_compact_oneLine _ c hc).2).trans (RidxFile.ofText_text data)

theorem ManifestFile.readAll_text (data : OrdDict String (List IndexSpec)) :
    readAll ManifestFile.ofText (utf8 (ManifestFile.payload data).text) = some (.payload data) :=
  (readAll_utf8 (dumps_indented_no_cr 2 _)).trans (ManifestFile.ofText_text data)

/-- A replaced or removed file is the only one that changes. -/
theorem rel_update {α β : Type*} {R : α → β → Prop} {f : String → Option α}
    {g : String → Option β} (h : ∀ file, Option.Rel R (f file) (g file)) {file : String}
    {a : Option α} {b : Option β} (hab : Option.Rel R a b) (file' : String) :
    Option.Rel R (Function.update f file a file') (Function.update g file b file') := by
  by_cases hf : file' = file
  · subst hf
    simpa using hab
  · simpa [Function.update_of_ne hf] using h file'

theorem keys_set_congr {α β : Type*} {m : OrdDict String α} {m' : OrdDict String β}
    (h : m.keys = m'.keys) {k : String} {v : α} {v' : β} :
    (m.set k v).keys = (m'.set k v').keys := by
  by_cases hk : k ∈ m.keys
  · rw [OrdDict.keys_set_of_mem v hk, OrdDict.keys_set_of_mem v' (h ▸ hk), h]
  · rw [OrdDict.keys_set_of_notMem v hk, OrdDict.keys_set_of_notMem v' (h ▸ hk), h]

theorem keys_erase_congr {α β : Type*} {m : OrdDict String α} {m' : OrdDict String β}
    (h : m.keys = m'.keys) {k : String} : (m.erase k).keys = (m'.erase k).keys := by
  rw [OrdDict.keys_erase, OrdDict.keys_erase, h]

/-- Every write keeps the bytes and the records together. -/
theorem TextDisk.holds_write {K : LineKind} {td : TextDisk} {d : Disk} (h : td.Holds d)
    {w : DiskWrite} (hw : w.Written K) : (td.write w).Holds (d.write w) := by
  cases w with
  | touchJsonl file =>
      exact { h with jsonl := rel_update h.jsonl (.some framed_nil) }
  | appendJsonl file line =>
      refine { h with jsonl := rel_update h.jsonl (.some ?_) }
      have hold := h.jsonl file
      have hline : Record.ofLine line.text = some line :=
        (Record.ofLine_eq_some_iff "").mpr (DocumentStore.parse_text (K.keyed_row hw) "")
      have hone : OneLine line.text ∧ line.text ≠ [] := ⟨line.text_oneLine, line.text_ne_nil⟩
      cases hb : td.jsonl file <;> cases hr : d.jsonl file <;> rw [hb, hr] at hold
      · exact framed_nil.append hone hline
      · cases hold
      · cases hold
      · cases hold with
        | some hold => exact hold.append hone hline
  | replaceJsonl file lines =>
      refine { h with jsonl := rel_update h.jsonl (.some ?_) }
      refine framed_map (fun r hr => (Record.ofLine_eq_some_iff "").mpr ?_)
        fun r => ⟨r.text_oneLine, r.text_ne_nil⟩
      exact DocumentStore.parse_text (K.keyed_row (hw r hr)) ""
  | unlinkJsonl file => exact { h with jsonl := rel_update h.jsonl .none }
  | replaceIdx file content =>
      obtain ⟨fields, unique, data, rfl⟩ := hw
      exact { h with idx := rel_update h.idx (.some (IdxFile.readAll_text fields unique data)) }
  | unlinkIdx file => exact { h with idx := rel_update h.idx .none }
  | replaceRidx file content =>
      obtain ⟨data, rfl⟩ := hw
      exact { h with ridx := rel_update h.ridx (.some (RidxFile.readAll_text data)) }
  | unlinkRidx file => exact { h with ridx := rel_update h.ridx .none }
  | replaceManifest content =>
      obtain ⟨data, rfl⟩ := hw
      exact { h with manifest := .some (ManifestFile.readAll_text data) }
  | appendWal file line =>
      obtain ⟨e, rfl, he⟩ := hw
      have hline : WAL.parse e.viaJson.text = some (.entry e.viaJson) := by
        rw [WALEntry.text_viaJson, WAL.parse_text (K.keyed_entry he)]
      have hone : OneLine e.viaJson.text ∧ e.viaJson.text ≠ [] := e.viaJson.text_oneLine
      have hold := h.wal file
      refine { h with wal_keys := keys_set_congr h.wal_keys, wal := fun file' => ?_ }
      change Option.Rel _ ((td.wal.set file _).get? file') ((d.wal.set file _).get? file')
      rw [OrdDict.get?_set, OrdDict.get?_set]
      split
      · refine .some ?_
        cases hb : td.wal.get? file <;> cases hr : d.wal.get? file <;> rw [hb, hr] at hold
        · exact framed_nil.append hone hline
        · cases hold
        · cases hold
        · cases hold with
          | some hold => exact hold.append hone hline
      · exact h.wal file'
  | unlinkWal file =>
      refine { h with wal_keys := keys_erase_congr h.wal_keys, wal := fun file' => ?_ }
      change Option.Rel _ ((td.wal.erase file).get? file') ((d.wal.erase file).get? file')
      rw [OrdDict.get?_erase, OrdDict.get?_erase]
      split
      · exact .none
      · exact h.wal file'

/-- Any number of writes. -/
theorem TextDisk.holds_applyAll {K : LineKind} {ws : List DiskWrite}
    (hws : ∀ w ∈ ws, w.Written K) {td : TextDisk} {d : Disk} (h : td.Holds d) :
    (applyAll td ws).Holds (applyAll d ws) := by
  induction ws generalizing td d with
  | nil => exact h
  | cons w ws ih =>
      exact ih (fun w' hw' => hws w' (by simp [hw'])) (TextDisk.holds_write h (hws w (by simp)))

/-! ### Documents with distinct keys -/

theorem keyedEntries_iff {es : List (String × PyVal)} :
    PyVal.keyedEntries es = true ↔ ∀ e ∈ es, e.2.keyed = true := by
  induction es with
  | nil => simp [PyVal.keyedEntries]
  | cons e es ih =>
      obtain ⟨k, v⟩ := e
      simp [PyVal.keyedEntries, ih]

namespace Doc

/-- No mapping of the document, at any depth, has a key twice. -/
def Keyed (d : Doc) : Prop := (PyVal.dict d.entries).keyed = true

instance (d : Doc) : Decidable (Keyed d) := inferInstanceAs (Decidable (_ = _))

theorem keyed_iff {d : Doc} : Keyed d ↔ ∀ k v, d.get? k = some v → v.keyed = true := by
  rw [Keyed, PyVal.keyed, Bool.and_eq_true, decide_eq_true_iff, keyedEntries_iff,
    and_iff_right d.nodup]
  constructor
  · intro h k v hv
    exact h (k, v) (OrdDict.mem_entries_iff.mpr hv)
  · intro h e he
    exact h e.1 e.2 (OrdDict.mem_entries_iff.mp he)

theorem keyed_set {d : Doc} (h : Keyed d) (k : String) {v : PyVal} (hv : v.keyed = true) :
    Doc.Keyed (d.set k v) := by
  rw [keyed_iff] at h ⊢
  intro k' v' hv'
  rw [OrdDict.get?_set] at hv'
  split at hv'
  · obtain rfl : v = v' := Option.some.inj hv'
    exact hv
  · exact h k' v' hv'

theorem keyed_viaJson {d : Doc} (h : Keyed d) : Keyed (Doc.viaJson d) := by
  rw [Keyed, ← viaJson_dict, PyJson.keyed_viaJson]
  exact h

theorem keyed_empty : Doc.Keyed OrdDict.empty := rfl

end Doc

theorem Record.keyed_ofDoc {document : Doc} (h : Doc.Keyed document) (docId : String) :
    (Record.ofDoc docId document).Keyed :=
  Doc.keyed_viaJson (Doc.keyed_set h "_id" rfl)

theorem Record.keyed_tombstone (docId : String) : (Record.tombstone docId).Keyed := rfl

namespace WALEntry

theorem keyed_iff {e : WALEntry} : e.Keyed ↔ ∀ d ∈ e.document, Doc.Keyed d := by
  rcases e with ⟨op, c, i, _ | d⟩
  · simp [WALEntry.Keyed, toDict, PyVal.keyed, PyVal.keyedEntries]
  · simp [WALEntry.Keyed, Doc.Keyed, toDict, PyVal.keyed, PyVal.keyedEntries]

theorem keyed_viaJson {e : WALEntry} (h : e.Keyed) : e.viaJson.Keyed := by
  rw [WALEntry.Keyed, ← viaJson_toDict, PyJson.keyed_viaJson]
  exact h

theorem keyed_document {e : WALEntry} (h : e.Keyed) :
    Doc.Keyed (e.document.getD OrdDict.empty) := by
  rw [keyed_iff] at h
  rcases hd : e.document with _ | d
  · exact Doc.keyed_empty
  · exact h d hd

end WALEntry

/-! ### Kinds of lines -/

/-- The mappings in a line have distinct keys, and nothing else is known. -/
def LineKind.keyed : LineKind where
  row r := r.Keyed
  entry e := e.Keyed
  keyed_row h := h
  keyed_entry h := h
  tombstone := Record.keyed_tombstone
  applied h := Record.keyed_ofDoc (WALEntry.keyed_document h) _
  viaJson := WALEntry.keyed_viaJson

/-- A document that may be written, with its id and as JSON leaves it. -/
theorem refused_ofDoc {lim : Limits} {left : ℕ} {document : Doc} (docId : String)
    (h : ∀ e ∈ document.entries, refused lim left e.2 = none) :
    refused lim (left + 1) (.dict (Record.ofDoc docId document).doc.entries) = none := by
  have hset : refused lim (left + 1) (.dict (document.set "_id" (.str docId)).entries) = none := by
    refine refused_dict.mpr fun e he => ?_
    have hget := OrdDict.mem_entries_iff.mp he
    rw [OrdDict.get?_set] at hget
    split at hget
    · rw [← Option.some.inj hget]
      rfl
    · exact h e (OrdDict.mem_entries_iff.mpr hget)
  have hvia := refused_viaJson _ hset
  rw [viaJson_dict] at hvia
  exact hvia

/-- An entry that may be written has a document that may be. -/
theorem WALEntry.refused_document {lim : Limits} {left : ℕ} {e : WALEntry}
    (h : refused lim (left + 1) e.toDict = none) :
    ∀ p ∈ (e.document.getD OrdDict.empty).entries, refused lim left p.2 = none := by
  rcases hd : e.document with _ | d
  · intro p hp
    cases hp
  · have hdict : refused lim left (.dict d.entries) = none := by
      have hentries := refused_dict.mp h ("document", .dict d.entries)
      exact hentries (by simp [hd])
    rcases left with _ | left
    · simp [refused] at hdict
    · exact fun p hp => refused_mono p.2 left.le_succ (refused_dict.mp hdict p hp)

/-- The lines that an interpreter with these limits writes. -/
def LineKind.within (lim : Limits) (hdepth : 0 < lim.depth) : LineKind where
  row r := r.Keyed ∧ refused lim lim.depth (.dict r.doc.entries) = none
  entry e := e.Keyed ∧ refused lim lim.depth e.toDict = none
  keyed_row h := h.1
  keyed_entry h := h.1
  tombstone docId := by
    refine ⟨Record.keyed_tombstone docId, ?_⟩
    obtain ⟨left, hleft⟩ := Nat.exists_eq_add_of_lt hdepth
    have hentries : (Record.tombstone docId).doc.entries =
        [("_deleted", .bool true), ("_id", .str docId)] := rfl
    rw [hleft, Nat.zero_add, hentries]
    refine refused_dict.mpr ?_
    simp
  applied := by
    rintro e ⟨hkeyed, hwithin⟩
    obtain ⟨left, hleft⟩ := Nat.exists_eq_add_of_lt hdepth
    rw [hleft, Nat.zero_add] at hwithin ⊢
    exact ⟨Record.keyed_ofDoc (WALEntry.keyed_document hkeyed) _,
      refused_ofDoc e.docId (WALEntry.refused_document hwithin)⟩
  viaJson := by
    rintro e ⟨hkeyed, hwithin⟩
    refine ⟨WALEntry.keyed_viaJson hkeyed, ?_⟩
    rw [← WALEntry.viaJson_toDict]
    exact refused_viaJson _ hwithin

/-! ### Whole files -/

/-- The bytes of a line. -/
def lineBytes (l : List Char) : List UInt8 := utf8 (lineText l)

/-- The lines of some rows. -/
def rowBytes (rows : List Record) : List UInt8 := utf8 ((rows.map Record.text).flatMap lineText)

theorem rowBytes_append (rows rows' : List Record) :
    rowBytes (rows ++ rows') = rowBytes rows ++ rowBytes rows' := by
  simp only [rowBytes, List.map_append, List.flatMap_append, utf8_append]

theorem framed_appendRows {bytes : List UInt8} {rows more : List Record}
    (h : Framed Record.ofLine bytes rows) (hmore : ∀ r ∈ more, r.Keyed) :
    Framed Record.ofLine (bytes ++ rowBytes more) (rows ++ more) := by
  induction more generalizing bytes rows with
  | nil => simpa [rowBytes] using h
  | cons r more ih =>
      have hline : Record.ofLine r.text = some r :=
        (Record.ofLine_eq_some_iff "").mpr (DocumentStore.parse_text (hmore r (by simp)) "")
      have hr := h.append ⟨r.text_oneLine, r.text_ne_nil⟩ hline
      have hrest := ih hr fun r' hr' => hmore r' (by simp [hr'])
      have hone : utf8 (lineText r.text) = rowBytes [r] := by simp [rowBytes]
      have hcons : rowBytes (r :: more) = rowBytes [r] ++ rowBytes more :=
        rowBytes_append [r] more
      rw [hone, List.append_assoc, ← hcons] at hrest
      simpa using hrest

/-- Where `json.dumps` returns the texts of some values, they are the texts. -/
theorem eq_map_dumps {α : Type*} {lim : Limits} {f : α → PyVal} {l : List α}
    {texts : List (List Char)}
    (h : l.map (fun a => encode .compact lim (f a)) = texts.map .ok) :
    texts = l.map fun a => dumps .compact (f a) := by
  induction l generalizing texts with
  | nil => simpa using h.symm
  | cons a l ih =>
      rcases texts with _ | ⟨text, texts⟩
      · cases h
      · rw [List.map_cons, List.map_cons, List.cons.injEq] at h
        rw [List.map_cons, (encode_eq_ok_iff.mp h.1).2, ih h.2]

/-- **Documents are read back.**  A file to which documents were appended, each
as `json.dumps` of the document with its `_id`, is read as the rows of the
documents as JSON leaves them, whatever the path. -/
theorem documents_read_back {lim : Limits} {docs : List (String × Doc)}
    {texts : List (List Char)} (h : ∀ e ∈ docs, Doc.Keyed e.2)
    (hdumps : docs.map (fun e =>
      encode .compact lim (.dict (e.2.set "_id" (.str e.1)).entries)) = texts.map .ok)
    (path : String) :
    DocumentStore.readText path (texts.flatMap lineBytes) =
      .ok (docs.map fun e => Record.ofDoc e.1 e.2) := by
  have hbytes : texts.flatMap lineBytes = rowBytes (docs.map fun e => Record.ofDoc e.1 e.2) := by
    rw [eq_map_dumps hdumps]
    clear hdumps h
    induction docs with
    | nil => rfl
    | cons e docs ih =>
        have hrow : rowBytes [Record.ofDoc e.1 e.2] = lineBytes (Record.ofDoc e.1 e.2).text := by
          simp [rowBytes, lineBytes]
        rw [List.map_cons, List.flatMap_cons, List.map_cons, ← List.singleton_append,
          rowBytes_append, hrow, Record.text_ofDoc, ih]
  rw [hbytes]
  refine (framed_appendRows framed_nil fun r hr => ?_).readText path
  obtain ⟨e, he, rfl⟩ := List.mem_map.mp hr
  exact Record.keyed_ofDoc (h e he) e.1

/-- A document with an infinity, escapes and a character outside ASCII. -/
def nestedDoc : Doc :=
  OrdDict.ofList [("low", .float (.inf true)), ("tags", .list [.str "a\n\\", .str "é"])]

/-- The document in an interpreter with just enough calls to go, and another one. -/
theorem nestedDoc_read_back :
    let texts := [nestedDoc.set "_id" (.str "1"), nestedDoc.set "_id" (.str "2")].map fun d =>
      dumps .compact (.dict d.entries)
    DocumentStore.readText "db/users.jsonl" (texts.flatMap lineBytes) =
      .ok [Record.ofDoc "1" nestedDoc, Record.ofDoc "2" nestedDoc] := by
  intro texts
  exact @documents_read_back ⟨4300, 2⟩ [("1", nestedDoc), ("2", nestedDoc)] texts (by decide) rfl _

/-- A log to which entries were appended is whole lines. -/
theorem framed_entries {entries : List WALEntry} (h : ∀ e ∈ entries, e.Keyed) :
    Framed WAL.parse ((entries.map WALEntry.text).flatMap lineBytes)
      ((entries.map WALEntry.viaJson).map .entry) := by
  have hparse : ∀ e ∈ entries, WAL.parse e.text = some (.entry e.viaJson) :=
    fun e he => WAL.parse_text (h e he)
  refine ⟨entries.map WALEntry.text, ?_, ?_, ?_⟩
  · rw [utf8, List.flatMap_assoc]
    rfl
  · simp only [List.map_map]
    exact List.map_congr_left hparse
  · intro l hl
    obtain ⟨e, -, rfl⟩ := List.mem_map.mp hl
    exact e.text_oneLine

/-- **Logs are read back.**  A log to which entries were appended, each as
`json.dumps` of the entry, is read as `dedup` of the entries as JSON leaves them. -/
theorem log_reads_back {lim : Limits} {entries : List WALEntry} {texts : List (List Char)}
    (h : ∀ e ∈ entries, e.Keyed)
    (hdumps : entries.map (fun e => encode .compact lim e.toDict) = texts.map .ok)
    (path : String) : WAL.readText path (texts.flatMap lineBytes) =
      .ok (WAL.dedup (entries.map WALEntry.viaJson)) := by
  have htexts : texts = entries.map WALEntry.text := eq_map_dumps hdumps
  rw [htexts, (framed_entries h).readText_wal, WAL.parseLines_entries]
  rfl

/-- Of two entries for one document the last is left, before that of another one. -/
theorem logged_updates_read_back :
    let entries : List WALEntry := [⟨.insert, "users", "1", some nestedDoc⟩,
      ⟨.insert, "users", "2", some nestedDoc⟩, ⟨.delete, "users", "1", none⟩]
    WAL.readText "db/t.wal" ((entries.map WALEntry.text).flatMap lineBytes) =
      .ok [⟨.delete, "users", "1", none⟩, ⟨.insert, "users", "2", some nestedDoc⟩] := by
  intro entries
  exact @log_reads_back ⟨4300, 3⟩ entries (entries.map WALEntry.text) (by decide) rfl _

/-- **Saved indexes are read back.**  What `save` writes, read as text and then
by `_read_idx` and `_read_ridx`, gives the indexes in memory. -/
theorem indexes_read_back (im : IndexManager) (path : String) :
    (∀ e ∈ im.indexes, (readAll IdxFile.ofText (utf8 (IndexManager.idxPayload e.1 e.2).text)).map
        (IndexManager.readIdx path e.1) = some (.ok e.2)) ∧
      (readAll RidxFile.ofText (utf8 im.ridxPayload.text)).map (IndexManager.readRidx path) =
        some (.ok im.reverse) := by
  constructor
  · intro e _
    rw [IndexManager.idxPayload, IdxFile.readAll_text]
    exact congrArg some (IndexManager.readIdx_idxPayload path e.1 e.2)
  · rw [IndexManager.ridxPayload, RidxFile.readAll_text]
    simp only [Option.map_some, IndexManager.readRidx,
      OrdDict.entries_ofList_of_nodup im.reverse.nodup_keys, InvertedIndex.ofEntries_toList]

end JsonpySql
