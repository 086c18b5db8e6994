/-
JsonpySql/DamagedIndexes.lean

Opening a directory with damaged index files.

A missing `.idx` file is noticed, and then all indexes of its collection are
rebuilt.  A file that is there but cannot be read leaves its index empty, and
nobody asks again: whether a rebuild is due is decided by the files that exist.
So an unreadable file is repaired just where another file of the collection is
missing, and else its lookups find nothing; and a file that is no text, whatever
else is missing, is not survived at all (`lookups_repaired_iff`).
-/
import JsonpySql.IndexInvariants
import JsonpySql.Reopening

namespace JsonpySql

open StorageEngine

/-! ### Lookups that agree with scans -/

/-- Every lookup of an indexed field yields exactly the rows whose value has the
encoded key looked up. -/
def LookupsAgree (env : Env) (w : Database) : Prop :=
  ∀ c im, w.mem.get? c = some im → ∀ field, (∃ spec ∈ im.specs, spec.fields = [field]) → ∀ v,
    ∃ ids rows, (StorageEngine.lookup c field v).value env w = .ok ids ∧
      (StorageEngine.scan c).value env w = .ok rows ∧ ids.Nodup ∧
      ∀ i, i ∈ ids ↔ ∃ r ∈ rows, r.docId = some i ∧ (Doc.get r.doc field).toStr = v.toStr

variable {env : Env} {w : Database} {c field : String} {im : IndexManager}
  {e : IndexSpec × SortedDict}

/-- Lookups agree with scans just where the index found for each field lists
exactly the live documents. -/
theorem lookupsAgree_iff (henv : env.Alone) (hw : Serving w) :
    LookupsAgree env w ↔ ∀ c im, w.mem.get? c = some im → ∀ field e,
      im.indexes.find? (fun e => e.1.fields = [field]) = some e →
      InvertedIndex.Lists e.2 (IndexManager.keyOf e.1 (tables w.disk c)) := by
  -- what a lookup yields, and when it is in the rows
  have hvalue : ∀ c im, w.mem.get? c = some im → ∀ field e,
      im.indexes.find? (fun e => e.1.fields = [field]) = some e → ∀ v,
      (StorageEngine.lookup c field v).value env w = .ok (InvertedIndex.ids e.2 v.toStr) ∧
      (StorageEngine.scan c).value env w = .ok (DocumentStore.rows (tables w.disk c)) ∧
      ∀ i, IndexManager.keyOf e.1 (tables w.disk c) i = some v.toStr ↔
        ∃ r ∈ DocumentStore.rows (tables w.disk c), r.docId = some i ∧
          (Doc.get r.doc field).toStr = v.toStr := by
    intro c im him field e hfind v
    obtain ⟨hhas, hlookup, -, hfields⟩ := IndexManager.lookup_of_find hfind v
    refine ⟨?_, value_scan henv hw (OrdDict.mem_keys_of_get? him), fun i => ?_⟩
    · rw [value_lookup henv hw him, lookupIn, if_pos hhas, hlookup]
    · rw [IndexManager.keyOf_eq_some_iff (tables_wf _ _)]
      simp only [IndexSpec.key_single hfields]
  constructor
  · intro h c im him field e hfind
    obtain ⟨-, -, hmem, hfields⟩ := IndexManager.lookup_of_find hfind .none
    have hspec : ∃ spec ∈ im.specs, spec.fields = [field] :=
      ⟨e.1, List.mem_map_of_mem hmem, hfields⟩
    -- every key is looked up by the string it is
    have hkey : ∀ key : String, (InvertedIndex.ids e.2 key).Nodup ∧ ∀ i,
        i ∈ InvertedIndex.ids e.2 key ↔
          IndexManager.keyOf e.1 (tables w.disk c) i = some key := by
      intro key
      obtain ⟨ids, rows, hids, hrows, hnodup, hiff⟩ := h c im him field hspec (.str key)
      obtain ⟨hids', hrows', hkeyOf⟩ := hvalue c im him field e hfind (.str key)
      rw [PyVal.toStr_str] at hids' hkeyOf hiff
      obtain rfl := Except.ok.inj (hids.symm.trans hids')
      obtain rfl := Except.ok.inj (hrows.symm.trans hrows')
      exact ⟨hnodup, fun i => (hiff i).trans (hkeyOf i).symm⟩
    exact ⟨fun key => (hkey key).1, fun key => (hkey key).2⟩
  · intro h c im him field hspec v
    obtain ⟨e, hfind⟩ : ∃ e, im.indexes.find? (fun e => e.1.fields = [field]) = some e := by
      obtain ⟨spec, hspec, hfields⟩ := hspec
      obtain ⟨e₀, he₀, rfl⟩ := List.mem_map.mp hspec
      rw [← Option.isSome_iff_exists, List.find?_isSome]
      exact ⟨e₀, he₀, by simpa using hfields⟩
    obtain ⟨hids, hrows, hkeyOf⟩ := hvalue c im him field e hfind v
    have hlists := h c im him field e hfind
    exact ⟨_, _, hids, hrows, hlists.tidy _, fun i => (hlists.mem_ids _ i).trans (hkeyOf i)⟩

/-! ### After opening -/

/-- What loading makes of the file of an index. -/
def loadedIdx (env : Env) (d : Disk) (name : String) (spec : IndexSpec) : SortedDict :=
  match d.idx (IndexManager.idxPath name spec) with
  | none => ∅
  | some file =>
      (IndexManager.readIdx (env.path (IndexManager.idxPath name spec)) spec file).toOption.getD ∅

theorem indexes_loaded_new (env : Env) (d : Disk) (name : String) (specs : List IndexSpec) :
    ((IndexManager.new name specs).loaded env d).indexes =
      specs.map fun spec => (spec, loadedIdx env d name spec) := by
  simp only [IndexManager.loaded, IndexManager.new, List.map_map]
  refine List.map_congr_left fun spec _ => ?_
  simp only [Function.comp_apply, loadedIdx]
  rcases d.idx (IndexManager.idxPath name spec) with _ | file <;> rfl

/-- Indexes with the same fields are loaded from the same file, and should say
the same. -/
theorem lists_loadedIdx_congr {spec spec' : IndexSpec} (h : spec.fields = spec'.fields) {d : Disk}
    {t : Table} :
    InvertedIndex.Lists (loadedIdx env d c spec) (IndexManager.keyOf spec t) ↔
      InvertedIndex.Lists (loadedIdx env d c spec') (IndexManager.keyOf spec' t) := by
  have hpath : IndexManager.idxPath c spec = IndexManager.idxPath c spec' := by
    rw [IndexManager.idxPath, h, IndexManager.idxPath]
  have hread : ∀ path file, IndexManager.readIdx path spec file =
      IndexManager.readIdx path spec' file := by
    intro path file
    cases file <;> simp only [IndexManager.readIdx, h]
  have hkey : spec.key = spec'.key := by
    funext document
    rw [IndexSpec.key, IndexSpec.makeKey, h, IndexSpec.key, IndexSpec.makeKey]
  have hloaded : loadedIdx env d c spec = loadedIdx env d c spec' := by
    simp only [loadedIdx, hpath, hread]
  have hkeyOf : IndexManager.keyOf spec t = IndexManager.keyOf spec' t := by
    funext i
    rw [IndexManager.keyOf, hkey, IndexManager.keyOf]
  rw [hloaded, hkeyOf]

/-- **What opening makes of a directory without logs**: the registry its files
say, and the documents as they were. -/
theorem opened_spec {reg : Catalog} {T : String → Table} {d : Disk} (env : Env)
    (h : Holds reg OrdDict.empty T d) (hsep : SeparateFiles reg) :
    let w := init.exec env ⟨OrdDict.empty, d⟩
    w.mem = openedRegistry env d reg ∧ w.mem.keys = reg.keys ∧ tables w.disk = T ∧ Serving w := by
  intro w
  have hrun := run_init env h hsep
  have hmem : w.mem = openedRegistry env d reg := congrArg Outcome.mem hrun
  have hsame : d.SameData w.disk := by
    show d.SameData (applyAll d (init.run env ⟨OrdDict.empty, d⟩).writes)
    rw [hrun]
    exact sameData_loadWrites env d reg.entries
  have hkeys : w.mem.keys = reg.keys := by
    rw [hmem, OrdDict.keys, entries_openedRegistry, List.map_map]
    rfl
  refine ⟨hmem, hkeys, (tables_congr hsame).trans h.tables, fun c hc => ?_⟩
  rw [hsame.jsonl]
  exact h.files c (hkeys ▸ hc)

/-- **When lookups agree after opening**: of every collection an index file is
missing, or every single-field index file lists exactly the live documents. -/
theorem lookupsAgree_reopened {reg : Catalog} {T : String → Table} {d : Disk} (henv : env.Alone)
    (h : Holds reg OrdDict.empty T d) (hsep : SeparateFiles reg) :
    LookupsAgree env (init.exec env ⟨OrdDict.empty, d⟩) ↔
      ∀ c specs, reg.get? c = some specs → MissingIdx d c specs ∨
        ∀ spec ∈ specs, ∀ field, spec.fields = [field] →
          InvertedIndex.Lists (loadedIdx env d c spec) (IndexManager.keyOf spec (T c)) := by
  obtain ⟨hmem, hkeys, htables, hw⟩ := opened_spec env h hsep
  set w := init.exec env ⟨OrdDict.empty, d⟩
  rw [lookupsAgree_iff henv hw, htables]
  constructor
  · intro hlists c specs hc
    rcases Decidable.em (MissingIdx d c specs) with hmissing | hpresent
    · exact Or.inl hmissing
    · refine Or.inr fun spec hspec field hfields => ?_
      have him : w.mem.get? c = some (openedIndexes env d c specs) := by
        rw [hmem]
        exact get?_openedRegistry hc env d
      have hindexes : (openedIndexes env d c specs).indexes =
          specs.map fun spec => (spec, loadedIdx env d c spec) := by
        rw [openedIndexes_of_not_missing hpresent, indexes_loaded_new]
      obtain ⟨e, hfind⟩ : ∃ e, (openedIndexes env d c specs).indexes.find?
          (fun e => e.1.fields = [field]) = some e := by
        rw [← Option.isSome_iff_exists, List.find?_isSome, hindexes]
        exact ⟨_, List.mem_map_of_mem hspec, by simpa using hfields⟩
      have he := hlists c _ him field e hfind
      obtain ⟨-, -, hmem', hfields'⟩ := IndexManager.lookup_of_find hfind .none
      rw [hindexes] at hmem'
      obtain ⟨spec', -, rfl⟩ := List.mem_map.mp hmem'
      exact (lists_loadedIdx_congr (hfields.trans hfields'.symm)).mpr he
  · intro hall c im him field e hfind
    have hc : c ∈ reg.keys := hkeys ▸ OrdDict.mem_keys_of_get? him
    obtain ⟨specs, hspecs⟩ := OrdDict.exists_get?_of_mem hc
    rw [hmem, get?_openedRegistry hspecs] at him
    obtain rfl := Option.some.inj him
    obtain ⟨-, -, hmem', hfields⟩ := IndexManager.lookup_of_find hfind .none
    rcases Decidable.em (MissingIdx d c specs) with hmissing | hpresent
    -- a rebuild is exact
    · rw [openedIndexes_of_missing hmissing, h.tables] at hmem'
      exact (IndexManager.exact_rebuild _ (h.tables ▸ tables_wf d c) e hmem').lists
    · rw [openedIndexes_of_not_missing hpresent, indexes_loaded_new] at hmem'
      obtain ⟨spec, hspec, rfl⟩ := List.mem_map.mp hmem'
      exact (hall c specs hspecs).resolve_left hpresent spec hspec field hfields

/-! ### Intact and damaged directories -/

/-- The state of an engine between two calls whose indexes are exact, and saved. -/
structure Intact (w : Database) : Prop where
  consistent : Consistent w
  named : ∀ c im, w.mem.get? c = some im → im.collection = c
  saved : ∀ c im, w.mem.get? c = some im → im.SavedIn w.disk
  exact : ∀ c im, w.mem.get? c = some im → im.Exact (tables w.disk c)

namespace Intact

theorem get?_idx (h : Intact w) (him : w.mem.get? c = some im) (he : e ∈ im.indexes) :
    w.disk.idx (IndexManager.idxPath c e.1) = some (IndexManager.idxPayload e.1 e.2) := by
  have hsaved := (h.saved c im him).idx e he
  rw [h.named c im him] at hsaved
  exact hsaved

/-- Index files that hold their indexes are the files of one collection each:
a file tells the fields of its index, and so the name of its collection. -/
theorem separate (h : Intact w) : SeparateFiles (catalog w.mem) := by
  have hnodup : (catalog w.mem).entries.Nodup := (catalog w.mem).nodup.of_map _
  refine hnodup.pairwise_of_forall_ne fun a ha b hb hne path hpath hpath' => hne ?_
  have hpayload : ∀ e ∈ (catalog w.mem).entries, ∀ spec ∈ e.2, ∃ unique data,
      w.disk.idx (IndexManager.idxPath e.1 spec) = some (.payload spec.fields unique data) := by
    intro e he spec hspec
    obtain ⟨im, him, hspecs⟩ := exists_of_catalog (OrdDict.mem_entries_iff.mp he)
    rw [← hspecs] at hspec
    obtain ⟨f, hf, rfl⟩ := List.mem_map.mp hspec
    exact ⟨_, _, h.get?_idx him hf⟩
  obtain ⟨spec, hspec, rfl⟩ := List.mem_map.mp hpath
  obtain ⟨spec', hspec', heq⟩ := List.mem_map.mp hpath'
  obtain ⟨u, x, hidx⟩ := hpayload a ha spec hspec
  obtain ⟨u', x', hidx'⟩ := hpayload b hb spec' hspec'
  rw [heq, hidx, Option.some.injEq, IdxFile.payload.injEq] at hidx'
  have hname : b.1 = a.1 := by
    rw [IndexManager.idxPath, IndexManager.idxPath, ← hidx'.1] at heq
    simpa [String.append_left_inj, String.append_assoc] using heq
  have hget := OrdDict.mem_entries_iff.mp hb
  rw [hname, OrdDict.mem_entries_iff.mp ha] at hget
  exact Prod.ext hname.symm (Option.some.inj hget)

theorem holds (h : Intact w) (hlogs : w.disk.wal = OrdDict.empty) :
    Holds (catalog w.mem) OrdDict.empty (tables w.disk) w.disk :=
  hlogs ▸ h.consistent.isOpen.holds

end Intact

/-- An engine with all its memory on disk and exact indexes is intact. -/
theorem Saved.intact (h : Saved w)
    (hexact : ∀ c im, w.mem.get? c = some im → im.Exact (tables w.disk c)) : Intact w where
  consistent := ⟨h.serving, h.manifest, h.readable⟩
  named := h.named
  saved := h.indexes
  exact := hexact

/-- A document with the two fields that are indexed. -/
def oneUser : Doc := OrdDict.ofList [("email", .str "a"), ("age", .int 7)]

/-- One collection with two indexes and one document. -/
def oneUserDb : Database :=
  performCalls ([.createCollection "users" [⟨["email"], true⟩, ⟨["age"], false⟩] false,
    .event (.engine (.write (.insert "users" "1" oneUser)))].map (onlyClient, ·)) emptyDb

theorem oneUserDb_intact : Intact oneUserDb := by
  have hsaved : Saved oneUserDb :=
    emptyDb_saved.performCalls ⟨rfl, by decide, rfl, by decide, trivial⟩
  have hkeys : oneUserDb.mem.keys = ["users"] := rfl
  have hcreated : Created emptyDb
      ((createCollection "users" [⟨["email"], true⟩, ⟨["age"], false⟩] false).exec onlyClient
        emptyDb) "users" [⟨["email"], true⟩, ⟨["age"], false⟩] := createCollection_spec rfl
  have hfresh : InsertsFresh onlyClient "users"
      ((createCollection "users" [⟨["email"], true⟩, ⟨["age"], false⟩] false).exec onlyClient
        emptyDb) [.write (.insert "users" "1" oneUser)] :=
    ⟨fun i d h => by cases h; rfl, trivial⟩
  obtain ⟨-, -, im, him, -, hexact⟩ := performAll_exact onlyClient_alone
    (hcreated.serving emptyDb_serving) (by decide) (by decide) hfresh hcreated.indexed
  rw [performAll, Prog.exec, Prog.run_forM_singleton] at him hexact
  refine hsaved.intact fun c im' him' => ?_
  obtain rfl : c = "users" := OrdDict.eq_of_get?_of_keys hkeys him'
  obtain rfl : im' = im := Option.some.inj (him'.symm.trans him)
  exact hexact

/-- An index file that is there and is no valid index: it is no JSON, be it text or
not, or its data is no object. -/
def Unreadable (d : Disk) (path : String) : Prop :=
  d.idx path = some .badData ∨ (∃ msg, d.idx path = some (.corrupt msg)) ∨
    ∃ msg, d.idx path = some (.undecodable msg)

/-- The registry, the documents and the logs are as they were, and every index
file is as it was, missing or unreadable. -/
structure Damaged (d d' : Disk) : Prop where
  manifest : d'.manifest = d.manifest
  jsonl : d'.jsonl = d.jsonl
  wal : d'.wal = d.wal
  idx : ∀ path, d'.idx path = d.idx path ∨ d'.idx path = none ∨ Unreadable d' path

/-- What a damaged directory still holds, if its index files are text. -/
theorem Damaged.holds {reg : Catalog} {T : String → Table} {d d' : Disk} (hd : Damaged d d')
    (h : Holds reg OrdDict.empty T d)
    (htext : ∀ e ∈ reg.entries, IndexManager.Readable d' e.1 e.2) :
    Holds reg OrdDict.empty T d' where
  manifest := h.manifest.congr hd.manifest
  files := by
    rw [hd.jsonl]
    exact h.files
  wal := hd.wal.trans h.wal
  tables := by
    rw [← h.tables]
    funext c
    rw [tables, tables, hd.jsonl]
  text := htext

theorem loadedIdx_of_unreadable {d : Disk} {spec : IndexSpec}
    (h : Unreadable d (IndexManager.idxPath c spec)) : loadedIdx env d c spec = ∅ := by
  obtain h | ⟨msg, h⟩ | ⟨msg, h⟩ := h
  all_goals simp [loadedIdx, h, IndexManager.readIdx, Except.toOption]

theorem loadedIdx_of_payload {d : Disk} {spec : IndexSpec} {idx : SortedDict}
    (h : d.idx (IndexManager.idxPath c spec) = some (IndexManager.idxPayload spec idx)) :
    loadedIdx env d c spec = idx := by
  simp [loadedIdx, h, IndexManager.readIdx_idxPayload, Except.toOption]

/-- A table without rows gives no id a key. -/
theorem IndexManager.keyOf_eq_none_iff {t : Table} (ht : t.WF) {spec : IndexSpec} :
    (∀ i, IndexManager.keyOf spec t i = none) ↔ DocumentStore.rows t = [] := by
  constructor
  · intro h
    refine List.eq_nil_iff_forall_not_mem.mpr fun r hr => ?_
    obtain ⟨i, hi⟩ := Table.mem_rows.mp hr
    have hnone := h i
    rw [IndexManager.keyOf, hi] at hnone
    cases hnone
  · intro h i
    refine Option.eq_none_iff_forall_ne_some.mpr fun key hkey => ?_
    obtain ⟨r, hr, -⟩ := (IndexManager.keyOf_eq_some_iff ht).mp hkey
    rw [h] at hr
    cases hr

/-- An index file that is there loads as what lists the documents exactly, unless it
cannot be read and there are documents to list. -/
theorem Intact.lists_damaged_iff {d : Disk} (h : Intact w) (hd : Damaged w.disk d)
    (him : w.mem.get? c = some im) {spec : IndexSpec} (hspec : spec ∈ im.specs)
    (hthere : d.idx (IndexManager.idxPath c spec) ≠ none) :
    InvertedIndex.Lists (loadedIdx env d c spec) (IndexManager.keyOf spec (tables w.disk c)) ↔
      (Unreadable d (IndexManager.idxPath c spec) →
        DocumentStore.rows (tables w.disk c) = []) := by
  obtain ⟨e, he, rfl⟩ := List.mem_map.mp hspec
  have hpayload := h.get?_idx him he
  obtain hsame | hnone | hbad := hd.idx (IndexManager.idxPath c e.1)
  · rw [hpayload] at hsame
    rw [loadedIdx_of_payload hsame]
    refine ⟨fun _ hbad => ?_, fun _ => (h.exact c im him e he).lists⟩
    obtain hbad | ⟨msg, hbad⟩ | ⟨msg, hbad⟩ := hbad <;>
    · rw [hbad] at hsame
      cases hsame
  · exact absurd hnone hthere
  · rw [loadedIdx_of_unreadable hbad, InvertedIndex.lists_empty_iff,
      IndexManager.keyOf_eq_none_iff (tables_wf _ _)]
    exact ⟨fun h _ => h, fun h => h hbad⟩

/-- The lookups after opening a damaged directory whose index files are text. -/
theorem Intact.lookupsAgree_damaged_iff {d : Disk} (henv : env.Alone) (h : Intact w)
    (hd : Damaged w.disk d) (hholds : Holds (catalog w.mem) OrdDict.empty (tables w.disk) d) :
    LookupsAgree env (init.exec env ⟨OrdDict.empty, d⟩) ↔
      ∀ c im, w.mem.get? c = some im →
        (∃ spec ∈ im.specs, d.idx (IndexManager.idxPath c spec) = none) ∨
        ∀ spec ∈ im.specs, ∀ field, spec.fields = [field] →
          Unreadable d (IndexManager.idxPath c spec) →
          DocumentStore.rows (tables w.disk c) = [] := by
  rw [lookupsAgree_reopened henv hholds h.separate]
  have hpresent : ∀ {c specs}, ¬MissingIdx d c specs → ∀ spec ∈ specs,
      d.idx (IndexManager.idxPath c spec) ≠ none := fun h spec hspec hnone =>
    h (missingIdx_iff.mpr ⟨spec, hspec, hnone⟩)
  constructor
  · intro hall c im him
    rcases Decidable.em (MissingIdx d c im.specs) with hmissing | hthere
    · exact Or.inl (missingIdx_iff.mp hmissing)
    · refine Or.inr fun spec hspec field hfields => ?_
      rw [← h.lists_damaged_iff hd him hspec (hpresent hthere spec hspec)]
      exact (hall c im.specs (get?_catalog him)).resolve_left hthere spec hspec field hfields
  · intro hall c specs hspecs
    obtain ⟨im, him, rfl⟩ := exists_of_catalog hspecs
    rcases Decidable.em (MissingIdx d c im.specs) with hmissing | hthere
    · exact Or.inl hmissing
    · refine Or.inr fun spec hspec field hfields => ?_
      rw [h.lists_damaged_iff hd him hspec (hpresent hthere spec hspec)]
      have hnot : ¬∃ spec ∈ im.specs, d.idx (IndexManager.idxPath c spec) = none := fun hex =>
        hthere (missingIdx_iff.mpr hex)
      exact (hall c im him).resolve_left hnot spec hspec field hfields

/-- **When damaged indexes are repaired on open.**  Opening a directory whose
index files were exact, and some of which are missing or unreadable now, returns and
leaves every lookup in agreement with the documents just if the index files are text,
and every collection has a missing index file, or its unreadable single-field index
files have no document to list. -/
theorem lookups_repaired_iff {d : Disk} (henv : env.Alone) (h : Intact w)
    (hlogs : w.disk.wal = OrdDict.empty) (hd : Damaged w.disk d) :
    init.value env ⟨OrdDict.empty, d⟩ = .ok () ∧
        LookupsAgree env (init.exec env ⟨OrdDict.empty, d⟩) ↔
      ∀ c im, w.mem.get? c = some im → IndexManager.Readable d c im.specs ∧
        ((∃ spec ∈ im.specs, d.idx (IndexManager.idxPath c spec) = none) ∨
          ∀ spec ∈ im.specs, ∀ field, spec.fields = [field] →
            Unreadable d (IndexManager.idxPath c spec) →
            DocumentStore.rows (tables w.disk c) = []) := by
  have htext : (∀ c im, w.mem.get? c = some im → IndexManager.Readable d c im.specs) ↔
      ∀ e ∈ (catalog w.mem).entries, IndexManager.Readable d e.1 e.2 := by
    constructor
    · rintro h ⟨c, specs⟩ he
      obtain ⟨im, him, rfl⟩ := exists_of_catalog (OrdDict.mem_entries_iff.mp he)
      exact h c im him
    · exact fun h c im him => h (c, im.specs) (OrdDict.mem_entries_iff.mpr (get?_catalog him))
  constructor
  · rintro ⟨hok, hagree⟩
    have hreadable : ∀ e ∈ (catalog w.mem).entries, IndexManager.Readable d e.1 e.2 := by
      by_contra hbad
      push Not at hbad
      have hbefore := h.holds hlogs
      obtain ⟨msg, herr⟩ : ∃ msg, ((catalog w.mem).entries.forM fun e =>
          loadCollection e.1 e.2).value env ⟨OrdDict.empty, d⟩ =
            .error (.unicodeDecodeError msg) :=
        loadEntries_raises env (fun e he => hd.jsonl ▸ hbefore.files e.1 (List.mem_map_of_mem he))
          (catalog w.mem).nodup h.separate hbad
      have hload : loadManifest.value env ⟨OrdDict.empty, d⟩ =
          .error (.unicodeDecodeError msg) := by
        rw [Prog.value, run_loadManifest env (hbefore.manifest.congr hd.manifest)]
        exact herr
      cases (Prog.value_bind_error hload).symm.trans hok
    have hrest := (h.lookupsAgree_damaged_iff henv hd
      (hd.holds (h.holds hlogs) hreadable)).mp hagree
    exact fun c im him => ⟨htext.mpr hreadable c im him, hrest c im him⟩
  · intro hall
    have hholds := hd.holds (h.holds hlogs) (htext.mp fun c im him => (hall c im him).1)
    exact ⟨congrArg Outcome.result (run_init env hholds h.separate),
      (h.lookupsAgree_damaged_iff henv hd hholds).mpr fun c im him => (hall c im him).2⟩

/-- The directory of one user with one of the index files cut short. -/
def cutShort : Disk :=
  { oneUserDb.disk with
    idx := Function.update oneUserDb.disk.idx "users.email.idx"
      (some (.corrupt "Expecting value: line 1 column 1 (char 0)")) }

theorem cutShort_damaged : Damaged oneUserDb.disk cutShort := by
  refine ⟨rfl, rfl, rfl, fun path => ?_⟩
  rcases eq_or_ne path "users.email.idx" with rfl | hne
  · refine Or.inr (Or.inr (Or.inr (Or.inl ⟨"Expecting value: line 1 column 1 (char 0)", ?_⟩)))
    simp [cutShort]
  · exact Or.inl (Function.update_of_ne hne _ _)

/-- An unreadable index file is not repaired, and its document is not found. -/
theorem not_repaired : Intact oneUserDb ∧ Damaged oneUserDb.disk cutShort ∧
    ¬LookupsAgree onlyClient (init.exec onlyClient ⟨OrdDict.empty, cutShort⟩) := by
  refine ⟨oneUserDb_intact, cutShort_damaged, fun h => ?_⟩
  have hholds := cutShort_damaged.holds (oneUserDb_intact.holds rfl) (by decide)
  rw [lookupsAgree_reopened onlyClient_alone hholds oneUserDb_intact.separate] at h
  obtain hmissing | hlists := h "users" [⟨["email"], true⟩, ⟨["age"], false⟩] rfl
  -- the file is there
  · exact absurd hmissing (by decide)
  -- it is read as an index without keys, and the document has one
  · have hnone := hlists _ List.mem_cons_self "email" rfl
    rw [loadedIdx_of_unreadable (Or.inr (Or.inl ⟨_, rfl⟩)), InvertedIndex.lists_empty_iff] at hnone
    exact absurd (hnone "1") (by decide)

/-- Where the other index file is missing, the unreadable one is rebuilt with it. -/
theorem lookups_repaired_users :
    let d := cutShort.write (.unlinkIdx "users.age.idx")
    init.value onlyClient ⟨OrdDict.empty, d⟩ = .ok () ∧
      LookupsAgree onlyClient (init.exec onlyClient ⟨OrdDict.empty, d⟩) := by
  intro d
  have hd : Damaged oneUserDb.disk d := by
    refine ⟨rfl, rfl, rfl, fun path => ?_⟩
    rcases eq_or_ne path "users.age.idx" with rfl | hne
    · refine Or.inr (Or.inl ?_)
      simp [d, Disk.write]
    · have hpath : d.idx path = cutShort.idx path := Function.update_of_ne hne _ _
      rw [Unreadable, hpath]
      exact cutShort_damaged.idx path
  refine (lookups_repaired_iff onlyClient_alone oneUserDb_intact rfl hd).mpr fun c im him => ?_
  have hkeys : oneUserDb.mem.keys = ["users"] := rfl
  obtain rfl : c = "users" := OrdDict.eq_of_get?_of_keys hkeys him
  obtain rfl := Option.some.inj him
  exact ⟨by decide, Or.inl ⟨_, List.mem_cons_of_mem _ List.mem_cons_self, rfl⟩⟩

end JsonpySql
