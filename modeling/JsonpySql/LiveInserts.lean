/-
JsonpySql/LiveInserts.lean

Inserts under an id that is in use.

`SchemaCollection.update` looks for the document it replaces, and raises where
there is none.  `SchemaCollection.insert` does not look whether there is one: it
appends a line under the primary key, and the last line of an id is its document.
What holds an insert back is a check of its fields or the lock, never the id
(`replacesNothing_iff`).
-/
import JsonpySql.PrimaryKeys

namespace JsonpySql

open StorageEngine SchemaCollection

/-- An insert of `document` replaces nothing: where it returns, its id is a new
one and every live document is live and the same afterwards, and where its primary
key is in use it raises and the state is as it was. -/
structure ReplacesNothing (C : SchemaCollection) (pk : String) (env : Env) (w : Database)
    (document : Doc) : Prop where
  fresh : ∀ docId, (C.insert document).value env w = .ok docId → ¬Live w C.name docId
  kept : ∀ docId, (C.insert document).value env w = .ok docId →
    ∀ i r, (tables w.disk C.name).liveRow i = some r →
      (tables ((C.insert document).exec env w).disk C.name).liveRow i = some r
  taken : ∀ validated key, C.model.dump document = .ok validated → validated.get? pk = some key →
    Live w C.name key.toStr → ∃ e, (C.insert document).run env w = ⟨.error e, w.mem, []⟩

/-- The id an insert takes is not in use, unless a check or the lock holds the
insert back anyway. -/
def TakesFreeId (C : SchemaCollection) (env : Env) (w : Database) (document : Doc) : Prop :=
  LockManager.blocked env (jsonlPath C.name) .exclusive = false →
    ∀ op, Admits C env w (.insert document) op → ¬Live w C.name op.docId

/-! ### One insert -/

section Insert

variable {C : SchemaCollection} {pk : String} {env : Env} {w : Database} {document : Doc}

/-- A write under a new id leaves every document as it is. -/
theorem liveRow_set_of_not_live {t : Table} {docId i : String} {v : Option Record} {r : Record}
    (hfresh : ¬(t.liveRow docId).isSome) (hr : t.liveRow i = some r) :
    Table.liveRow (t.set docId v) i = some r := by
  rw [Table.liveRow_set, if_neg]
  · exact hr
  · rintro rfl
    rw [hr] at hfresh
    exact hfresh rfl

/-- **When an insert replaces nothing.** -/
theorem replacesNothing_iff (hpk : C.pkField = some pk) (hw : Serving w)
    (hC : C.name ∈ w.mem.keys) :
    ReplacesNothing C pk env w document ↔ TakesFreeId C env w document := by
  obtain ⟨im, him⟩ := OrdDict.exists_get?_of_mem hC
  cases insert_outcome env hw him document with
  | refused hrun hwhy =>
      -- nothing is returned, and nothing is written
      have herror : ∀ docId, (C.insert document).value env w ≠ .ok docId := by
        intro docId hok
        rw [Prog.value, hrun] at hok
        cases hok
      refine iff_of_true ⟨?_, ?_, ?_⟩ ?_
      · exact fun docId hok => absurd hok (herror docId)
      · exact fun docId hok => absurd hok (herror docId)
      · exact fun _ _ _ _ _ => ⟨_, hrun⟩
      · intro hfree op hadmits
        rw [(hwhy op hadmits).1] at hfree
        cases hfree
  | torn hcall => cases hcall
  | @wrote op hadmits hfree hok hchanged =>
      constructor
      · intro h _ op' hadmits'
        rw [hadmits.unique hadmits']
        exact h.fresh op.docId hok
      · intro h
        have hfresh : ¬Live w C.name op.docId := h hfree op hadmits
        refine ⟨fun docId hok' => ?_, fun docId _ i r hr => ?_,
          fun validated key hvalid hkey hlive => absurd ?_ hfresh⟩
        · obtain rfl := Except.ok.inj (hok.symm.trans hok')
          exact hfresh
        · rw [Prog.exec, liveRow_of_changed hchanged, if_pos rfl]
          exact liveRow_set_of_not_live hfresh hr
        · -- the id has been taken from the key
          obtain ⟨_, docId, rfl, hvalid', hid, -⟩ := hadmits.of_insert
          obtain rfl := Except.ok.inj (hvalid.symm.trans hvalid')
          obtain rfl := Except.ok.inj
            (hid.symm.trans (SchemaCollection.value_extractOrGenerateId hpk hkey))
          exact hlive

end Insert

/-! ### Runs -/

/-- **When inserts replace nothing.**  Take a collection whose model has a primary
key and any run of calls on it and on other collections and of compactions, each
in surroundings of its own and each succeeding or raising.  In every state an
insert of any document, in any surroundings, replaces nothing just if the id it
takes is not in use or a check or the lock holds it back; so the inserts of the
run replace nothing just if that is so of each of them. -/
theorem inserts_replaceNothing_iff (C : SchemaCollection) (pk : String) (w₀ : Database)
    (steps : List (Env × SchemaStep)) (hpk : C.pkField = some pk) (hw : Serving w₀)
    (hC : C.name ∈ w₀.mem.keys)
    (hsteps : ∀ s ∈ steps, ∀ sc request, s.2 = .call sc request → sc.name ∈ w₀.mem.keys) :
    Throughout (fun w => ∀ env document,
        ReplacesNothing C pk env w document ↔ TakesFreeId C env w document) w₀ steps ∧
      (EachStep (fun w env step => ∀ document, step = .call C (.insert document) →
          ReplacesNothing C pk env w document) w₀ steps ↔
        EachStep (fun w env step => ∀ document, step = .call C (.insert document) →
          TakesFreeId C env w document) w₀ steps) := by
  have hiff : Throughout (fun w => ∀ env document,
      ReplacesNothing C pk env w document ↔ TakesFreeId C env w document) w₀ steps := by
    refine (throughout_serving hw hsteps).mono ?_
    rintro w ⟨hw, hkeys⟩ env document
    exact replacesNothing_iff hpk hw (hkeys ▸ hC)
  refine ⟨hiff, fun h => h.imp hiff ?_, fun h => h.imp hiff ?_⟩
  · exact fun s _ w hw h document hcall => (hw s.1 document).mp (h document hcall)
  · exact fun s _ w hw h document hcall => (hw s.1 document).mpr (h document hcall)

/-! ### Users -/

def keyedUser (i email : String) : Doc := OrdDict.ofList [("id", .str i), ("email", .str email)]

/-- A user is replaced by an insert. -/
theorem insert_replaces_user : usersById.pkField = some "id" ∧
    ¬Throughout (fun w => ∀ env document, ReplacesNothing usersById "id" env w document) usersDb
      [(onlyClient, .call usersById (.insert (keyedUser "1" "a")))] := by
  refine ⟨rfl, ?_⟩
  intro h
  have hnone := (h.2.here onlyClient (keyedUser "1" "b")).fresh "1" rfl
  exact hnone (by decide +kernel)

/-- A user takes the id of its key. -/
theorem takesFreeId_keyedUser {env : Env} {w : Database} {i email : String}
    (hfree : ¬Live w "users" i) : TakesFreeId usersById env w (keyedUser i email) := by
  intro _ op hadmits
  obtain ⟨_, _, rfl, hvalid, hid, -⟩ := hadmits.of_insert
  obtain rfl := Except.ok.inj hvalid
  have hpk : usersById.pkField = some "id" := rfl
  obtain rfl := Except.ok.inj (hid.symm.trans
    (SchemaCollection.value_extractOrGenerateId hpk rfl))
  exact hfree

/-- Two users, each under a key of its own. -/
theorem inserts_replaceNothing_users :
    EachStep (fun w env step => ∀ document, step = .call usersById (.insert document) →
        ReplacesNothing usersById "id" env w document) usersDb
      [(onlyClient, .call usersById (.insert (keyedUser "1" "a"))),
        (onlyClient, .call usersById (.insert (keyedUser "2" "a")))] := by
  refine (inserts_replaceNothing_iff usersById "id" usersDb _ rfl usersDb_serving (by decide)
    ?_).2.mpr ⟨?_, ?_, trivial⟩
  · simp only [List.forall_mem_cons, List.not_mem_nil, false_imp_iff, implies_true, and_true]
    refine ⟨?_, ?_⟩ <;>
    · rintro sc request ⟨⟩
      decide
  · rintro document ⟨⟩
    exact takesFreeId_keyedUser (by decide)
  · rintro document ⟨⟩
    exact takesFreeId_keyedUser (by decide +kernel)

end JsonpySql
