/-
JsonpySql/SharedDirectory.lean

Several clients on one directory.

Every client has the indexes in its own memory, read from the directory when it
opened, and saves all of a collection's indexes whenever it changes one of
them.  Documents are only on disk, so whoever wrote them, all clients read the
same ones (`shared_documents`).  An index is another matter: what another client
files does not reach it, and what it saves replaces what the other one saved.

`View` says what the indexes of a client can be relied on for: it lists every
live document it *knows*, and none it has not *seen*.  An own write makes a
document known, a write of another client makes it unknown, a compaction makes
the whole collection known, and opening takes over the view of the client that
saved last (`Views.step`).  This is what lookups answer, in every interleaving
of complete calls (`shared_lookups`).  The directory itself is one more holder of
indexes, `none`.
-/
import JsonpySql.IndexInvariants
import JsonpySql.Reopening

namespace JsonpySql

open StorageEngine

/-! ### Clients -/

/-- The memory of every client, and the directory. -/
structure Clients (ι : Type*) where
  mem : ι → Registry
  disk : Disk

/-- A call of a client, or its opening of the directory. -/
inductive ClientStep (ι : Type*)
  | opens (i : ι) (env : Env)
  | op (i : ι) (env : Env) (op : EngineOp)

namespace Clients

variable {ι : Type*} [DecidableEq ι]

/-- What a client has before it. -/
def world (s : Clients ι) (i : ι) : Database := ⟨s.mem i, s.disk⟩

/-- The world a client leaves. -/
def leave (s : Clients ι) (i : ι) (w : Database) : Clients ι :=
  ⟨Function.update s.mem i w.mem, w.disk⟩

/-- One step. -/
def step (s : Clients ι) : ClientStep ι → Clients ι
  | .opens i env => s.leave i (init.exec env ⟨OrdDict.empty, s.disk⟩)
  | .op i env op => s.leave i (op.perform.exec env (s.world i))

/-- The operation the step completes. -/
def completed (s : Clients ι) : ClientStep ι → Option EngineOp
  | .opens _ _ => none
  | .op i env op => if op.perform.value env (s.world i) = .ok () then some op else none

omit [DecidableEq ι] in
theorem eq_of_completed {s : Clients ι} {i : ι} {env : Env} {op op' : EngineOp}
    (h : s.completed (.op i env op) = some op') : op = op' := by
  rw [completed] at h
  split at h
  · exact Option.some.inj h
  · cases h

end Clients

/-! ### Views -/

/-- The documents a holder of indexes knows, and those it has seen. -/
structure View where
  knows : Set String
  seen : Set String

namespace View

def wrote (v : View) (id : String) : View := ⟨insert id v.knows, insert id v.seen⟩

def missed (v : View) (id : String) : View := { v with knows := v.knows \ {id} }

/-- After a rebuild from a table. -/
def rebuilt (t : Table) : View := ⟨Set.univ, {id | (t.liveRow id).isSome}⟩

/-- After an own operation on a collection with table `t`. -/
def own (v : View) (t : Table) : EngineOp → View
  | .write w => v.wrote w.docId
  | .compact _ => rebuilt t

/-- After an operation of another client. -/
def other (v : View) : EngineOp → View
  | .write w => v.missed w.docId
  | .compact _ => v

end View

/-- The views of the clients, and of the saved indexes (`none`), by
collection. -/
abbrev Views (ι : Type*) := Option ι → String → View

namespace Views

variable {ι : Type*} [DecidableEq ι]

/-- The views after client `i` has completed an operation.  It saves what it
has, so the saved indexes get its view. -/
def op (V : Views ι) (T : String → Table) (i : ι) (op : EngineOp) : Views ι := fun h c =>
  if c ≠ op.collection then V h c
  else if h = some i ∨ h = none then (V (some i) c).own (T c) op
  else (V h c).other op

/-- The views after a step from `s`. -/
def step (V : Views ι) (s : Clients ι) (a : ClientStep ι) : Views ι :=
  match a with
  | .opens i _ => Function.update V (some i) (V none)
  | .op i _ _ => (s.completed a).elim V (V.op (tables s.disk) i)

/-- Who has seen a document after an operation has seen it before, or has taken it
over from the client that completed it. -/
theorem mem_seen_op {V : Views ι} {T : String → Table} {i : ι} {op : EngineOp} {h : Option ι}
    {c id : String} (hmem : id ∈ (V.op T i op h c).seen) :
    id ∈ (V h c).seen ∨ (h = some i ∨ h = none) ∧ (id ∈ (V (some i) c).seen ∨
      (∃ w, op = .write w ∧ w.target = (c, id)) ∨
        op = .compact c ∧ ((T c).liveRow id).isSome) := by
  rw [Views.op] at hmem
  split at hmem
  · exact .inl hmem
  · next hc =>
      obtain rfl := not_not.mp hc
      split at hmem
      · next hown =>
          refine .inr ⟨hown, ?_⟩
          cases op with
          | write w =>
              rcases hmem with rfl | hold
              · exact .inr (.inl ⟨w, rfl, rfl⟩)
              · exact .inl hold
          | compact c => exact .inr (.inr ⟨rfl, hmem⟩)
      · cases op <;> exact .inl hmem

end Views

/-! ### Indexes and views -/

namespace IndexManager

/-- The indexes list every live document that is known, and none that was not
seen. -/
structure Within (im : IndexManager) (t : Table) (v : View) : Prop where
  knows : ∀ e ∈ im.indexes, ∀ id ∈ v.knows, ∀ k, keyOf e.1 t id = some k →
    id ∈ InvertedIndex.ids e.2 k
  seen : ∀ e ∈ im.indexes, ∀ k, ∀ id ∈ InvertedIndex.ids e.2 k, id ∈ v.seen

variable {im : IndexManager} {t t' : Table} {v : View} {docId : String}

open Classical in
/-- Completeness for the known documents is completeness for a table of them. -/
theorem complete_filterKeys :
    im.Complete (t.filterKeys fun id => id ∈ v.knows) ↔
      ∀ e ∈ im.indexes, ∀ id ∈ v.knows, ∀ k, keyOf e.1 t id = some k →
        id ∈ InvertedIndex.ids e.2 k := by
  have hkey : ∀ spec id, keyOf spec (t.filterKeys fun id => id ∈ v.knows) id =
      if id ∈ v.knows then keyOf spec t id else none := by
    intro spec id
    show (Table.liveRow _ id).map _ = if _ then (t.liveRow id).map _ else none
    rw [Table.liveRow, OrdDict.get?_filterKeys]
    by_cases hid : id ∈ v.knows
    · simp [hid, Table.liveRow]
    · simp [hid]
  constructor
  · intro h e he id hid k hk
    apply h e he id k
    rw [hkey, if_pos hid, hk]
  · intro h e he id k hk
    rw [hkey] at hk
    split at hk
    · next hid => exact h e he id hid k hk
    · cases hk

theorem mem_seen_addToIndexes {s : Set String} {document : Doc}
    (h : ∀ e ∈ im.indexes, ∀ k, ∀ id ∈ InvertedIndex.ids e.2 k, id ∈ s) :
    ∀ e ∈ (im.addToIndexes docId document).indexes, ∀ k, ∀ id ∈ InvertedIndex.ids e.2 k,
      id ∈ insert docId s := by
  intro e he k id hid
  obtain ⟨e₀, he₀, rfl⟩ := List.mem_map.mp he
  rcases InvertedIndex.mem_ids_add.mp hid with hold | ⟨-, rfl⟩
  · exact Set.mem_insert_of_mem _ (h e₀ he₀ k id hold)
  · exact Set.mem_insert _ _

theorem mem_seen_removeFromIndexes {s : Set String} {document : Doc}
    (h : ∀ e ∈ im.indexes, ∀ k, ∀ id ∈ InvertedIndex.ids e.2 k, id ∈ s) :
    ∀ e ∈ (im.removeFromIndexes docId document).indexes, ∀ k, ∀ id ∈ InvertedIndex.ids e.2 k,
      id ∈ s := by
  intro e he k id hid
  obtain ⟨e₀, he₀, rfl⟩ := List.mem_map.mp he
  rw [InvertedIndex.ids_remove] at hid
  split at hid
  · exact h e₀ he₀ _ id (List.mem_of_mem_erase hid)
  · exact h e₀ he₀ k id hid

/-- No operation lists a document but the one it writes. -/
theorem mem_seen_newIndexes {s : Set String}
    (h : ∀ e ∈ im.indexes, ∀ k, ∀ id ∈ InvertedIndex.ids e.2 k, id ∈ s) (w : WriteOp) (t : Table) :
    ∀ e ∈ (w.newIndexes t im).indexes, ∀ k, ∀ id ∈ InvertedIndex.ids e.2 k,
      id ∈ insert w.docId s := by
  cases w with
  | insert c i d => exact mem_seen_addToIndexes h
  | update c i d =>
      show ∀ e ∈ (im.replaceInIndexes i ((t.get i).map (withId · i)) (withId d i)).indexes, _
      cases t.get i with
      | none => exact mem_seen_addToIndexes h
      | some old => exact mem_seen_addToIndexes (mem_seen_removeFromIndexes h)
  | delete c i =>
      show ∀ e ∈ (im.dropFromIndexes i ((t.get i).map (withId · i))).indexes, _
      intro e he k id hid
      cases hold : t.get i with
      | none =>
          rw [hold] at he
          exact Set.mem_insert_of_mem _ (h e he k id hid)
      | some old =>
          rw [hold] at he
          exact Set.mem_insert_of_mem _ (mem_seen_removeFromIndexes h e he k id hid)

namespace Within

/-- The client's own write. -/
theorem wrote (h : im.Within t v) {w : WriteOp} (hw : w.Clean) :
    (w.newIndexes t im).Within (t.set w.docId w.line.slot) (v.wrote w.docId) where
  knows := by
    classical
    have hcomplete := complete_write hw (complete_filterKeys.mpr h.knows)
      ((t.get w.docId).map (withId · w.docId))
    have hnew : (w.newIndexes t im).Complete
        ((t.set w.docId w.line.slot).filterKeys fun id => id ∈ (v.wrote w.docId).knows) := by
      refine Complete.congr (t := (t.filterKeys fun id => id ∈ v.knows).set w.docId w.line.slot)
        ?_ fun id => ?_
      · cases w <;> exact hcomplete
      · simp only [Table.liveRow, OrdDict.get?_set, OrdDict.get?_filterKeys, View.wrote,
          Set.mem_insert_iff]
        by_cases hid : id = w.docId <;> simp [hid]
    exact complete_filterKeys.mp hnew
  seen := mem_seen_newIndexes h.seen w t

/-- The write of another client. -/
theorem missed (h : im.Within t v) (id : String) (row : Option Record) :
    im.Within (t.set id row) (v.missed id) where
  knows e he id' hid' k hk := by
    obtain ⟨hknown, hne⟩ := hid'
    rw [keyOf_set, Function.update_of_ne hne] at hk
    exact h.knows e he id' hknown k hk
  seen := h.seen

theorem congr (h : im.Within t v) (ht : ∀ id, t.liveRow id = t'.liveRow id) : im.Within t' v where
  knows e he id hid k hk := h.knows e he id hid k ((congrFun (keyOf_congr ht e.1) id).trans hk)
  seen := h.seen

/-- The client's own operation. -/
theorem own (h : im.Within t v) {op : EngineOp} (hop : op.Clean) (ht : t.WF) :
    (op.newIndexes t im).Within (op.newTable t) (v.own t op) := by
  cases op with
  | write w => exact h.wrote hop
  | compact c =>
      have hexact := im.exact_rebuild ht
      refine ⟨fun e he id _ k hk => ?_, fun e he k id hid => ?_⟩
      · apply (hexact e he).complete id k
        exact (congrFun (keyOf_congr t.liveRow_live e.1) id).symm.trans hk
      · show (t.liveRow id).isSome
        have hkey := ((hexact e he).mem_ids k id).mp hid
        obtain ⟨r, hr, -⟩ := Option.map_eq_some_iff.mp hkey
        rw [hr]
        rfl

/-- The operation of another client. -/
theorem other (h : im.Within t v) (op : EngineOp) : im.Within (op.newTable t) (v.other op) := by
  cases op with
  | write w => exact h.missed w.docId w.line.slot
  | compact c => exact h.congr fun id => (t.liveRow_live id).symm

end Within

/-- Exact indexes know the whole table. -/
theorem Exact.within (h : im.Exact t) : im.Within t (View.rebuilt t) where
  knows e he id _ k hk := (h e he).complete id k hk
  seen e he k id hid := by
    obtain ⟨r, hr, -⟩ := Option.map_eq_some_iff.mp (((h e he).mem_ids k id).mp hid)
    show (t.liveRow id).isSome
    rw [hr]
    rfl

end IndexManager

/-! ### Runs -/

variable {ι : Type*} [DecidableEq ι] {reg : Catalog} {s : Clients ι} {V : Views ι}

/-- A registry of the directory's collections, or of none, whose indexes are
within a view. -/
structure Fits (reg : Catalog) (disk : Disk) (registry : Registry) (v : String → View) :
    Prop where
  catalog : registry = OrdDict.empty ∨ catalog registry = reg
  named : ∀ c im, registry.get? c = some im → im.collection = c
  within : ∀ c im, registry.get? c = some im → im.Within (tables disk c) (v c)

/-- Clients of a directory with catalog `reg` and without logs: the saved
indexes and those of every client are within their views. -/
structure Sharing (reg : Catalog) (s : Clients ι) (V : Views ι) : Prop where
  logs : s.disk.wal = OrdDict.empty
  saved : ∃ G, Saved ⟨G, s.disk⟩ ∧ JsonpySql.catalog G = reg ∧ Fits reg s.disk G (V none)
  client : ∀ i, Fits reg s.disk (s.mem i) (V (some i))

theorem Fits.specs {disk : Disk} {registry : Registry} {v : String → View} {c : String}
    {im : IndexManager} (h : Fits reg disk registry v) (him : registry.get? c = some im) :
    reg.get? c = some im.specs := by
  rcases h.catalog with rfl | rfl
  · cases him
  · exact get?_catalog (w := ⟨registry, disk⟩) him

section Fits

variable {disk disk' : Disk} {R : Registry} {v v' : String → View} {c : String} {t' : Table}
  {im im' : IndexManager}

/-- A holder whose indexes of the changed collection are replaced. -/
theorem Fits.set (h : Fits reg disk R v) (him : R.get? c = some im)
    (hspecs : im'.specs = im.specs) (hname : im'.collection = c)
    (htables : tables disk' = Function.update (tables disk) c t')
    (hwithin : im'.Within t' (v' c)) (hv : ∀ c', c' ≠ c → v' c' = v c') :
    Fits reg disk' (R.set c im') v' where
  catalog := by
    rcases h.catalog with rfl | hreg
    · cases him
    · exact .inr ((catalog_set (w := ⟨R, disk⟩) him hspecs).trans hreg)
  named c' im₁ h₁ := by
    rw [OrdDict.get?_set] at h₁
    split at h₁
    · next heq =>
        obtain rfl := Option.some.inj h₁
        exact hname.trans heq.symm
    · exact h.named c' im₁ h₁
  within c' im₁ h₁ := by
    rw [OrdDict.get?_set] at h₁
    split at h₁
    · next heq =>
        obtain rfl := Option.some.inj h₁
        rw [heq, htables, Function.update_self]
        exact hwithin
    · next hne =>
        rw [htables, Function.update_of_ne hne, hv c' hne]
        exact h.within c' im₁ h₁

/-- A holder that keeps its indexes. -/
theorem Fits.stale (h : Fits reg disk R v)
    (htables : tables disk' = Function.update (tables disk) c t')
    (hwithin : ∀ im, R.get? c = some im → im.Within t' (v' c))
    (hv : ∀ c', c' ≠ c → v' c' = v c') : Fits reg disk' R v' where
  catalog := h.catalog
  named := h.named
  within c' im₁ h₁ := by
    by_cases hne : c' = c
    · subst hne
      rw [htables, Function.update_self]
      exact hwithin im₁ h₁
    · rw [htables, Function.update_of_ne hne, hv c' hne]
      exact h.within c' im₁ h₁

end Fits

namespace Sharing

omit [DecidableEq ι] in
theorem serving (h : Sharing reg s V) (i : ι) : Serving (s.world i) := by
  intro c hc
  obtain ⟨G, hG, rfl, -⟩ := h.saved
  obtain ⟨im, him⟩ := OrdDict.exists_get?_of_mem hc
  have hreg : (catalog G).get? c = some im.specs := (h.client i).specs him
  apply hG.serving c
  rw [← keys_catalog]
  exact OrdDict.mem_keys_of_get? hreg

/-- A step that completes nothing changes nothing. -/
theorem exec_of_not_completed (h : Sharing reg s V) {i : ι} {env : Env} {op : EngineOp}
    (hnot : s.completed (.op i env op) = none) : s.step (.op i env op) = s := by
  have hexec : op.perform.exec env (s.world i) = s.world i := by
    rcases him : (s.world i).mem.get? op.collection with _ | im
    · rw [Prog.exec, run_perform_of_notMem op env (OrdDict.get?_eq_none_iff.mp him)]
      rfl
    · rcases perform_cases op env (h.serving i) him with hrun | ⟨hok, -⟩
      · rw [Prog.exec, hrun]
        rfl
      · rw [Clients.completed, if_pos hok] at hnot
        cases hnot
  show s.leave i (op.perform.exec env (s.world i)) = s
  rw [hexec]
  show (⟨Function.update s.mem i (s.mem i), s.disk⟩ : Clients ι) = s
  rw [Function.update_eq_self]

/-- What a completed operation does. -/
theorem of_completed (h : Sharing reg s V) {i : ι} {env : Env} {op op' : EngineOp}
    (hdone : s.completed (.op i env op) = some op') (hclean : op.Clean) :
    op' = op ∧ tables (s.step (.op i env op)).disk =
        Function.update (tables s.disk) op.collection (op.newTable (tables s.disk op.collection)) ∧
      Sharing reg (s.step (.op i env op)) (V.op (tables s.disk) i op) := by
  obtain rfl := Clients.eq_of_completed hdone
  have hok : op.perform.value env (s.world i) = .ok () := by
    rw [Clients.completed] at hdone
    split at hdone
    · next hok => exact hok
    · cases hdone
  obtain ⟨G, hG, hreg, hfits⟩ := h.saved
  obtain ⟨im, dw, t', him, hdw, hrun⟩ := perform_of_ok op (h.serving i) hok
  have hchanged : Changed (s.world i) (op.perform.exec env (s.world i)) op.collection
      (op.newTable (tables s.disk op.collection))
      (op.newIndexes (tables s.disk op.collection) im) := by
    rcases perform_cases op env (h.serving i) him with hrun' | ⟨-, hchanged⟩
    · rw [Prog.value, hrun'] at hok
      cases hok
    · exact hchanged
  set c := op.collection
  set im' := op.newIndexes (tables s.disk c) im
  have hname : im'.collection = c :=
    op.collection_newIndexes.trans ((h.client i).named c im him)
  have hwithin : im'.Within (op.newTable (tables s.disk c))
      ((V (some i) c).own (tables s.disk c) op) :=
    ((h.client i).within c im him).own hclean (tables_wf s.disk c)
  have htables : tables (op.perform.exec env (s.world i)).disk =
      Function.update (tables s.disk) c (op.newTable (tables s.disk c)) := hchanged.tables
  have hviews : ∀ h c', c' ≠ c → V.op (tables s.disk) i op h c' = V h c' := fun h c' hne =>
    if_pos hne
  have hown : ∀ h, h = some i ∨ h = none → V.op (tables s.disk) i op h c =
      (V (some i) c).own (tables s.disk c) op := fun h hh => by
    show (if c ≠ c then _ else if h = some i ∨ h = none then _ else _) = _
    rw [if_neg (not_not.mpr rfl), if_pos hh]
  have hdisk : (op.perform.exec env (s.world i)).disk =
      applyAll (s.disk.write dw) im'.saveWrites := congrArg World.disk (Prog.exec_of_run hrun)
  refine ⟨rfl, htables, ?_, ?_, ?_⟩
  · show (op.perform.exec env (s.world i)).disk.wal = _
    rw [hchanged.wal]
    exact h.logs
  -- the saved indexes are those of the client
  · obtain ⟨im₀, him₀, hspecs₀⟩ : ∃ im₀, G.get? c = some im₀ ∧ im₀.specs = im.specs :=
      exists_of_catalog (w := ⟨G, s.disk⟩) (hreg ▸ (h.client i).specs him)
    have hspecs : im'.specs = im₀.specs := op.specs_newIndexes.trans hspecs₀.symm
    refine ⟨G.set c im', ?_, (catalog_set (w := ⟨G, s.disk⟩) him₀ hspecs).trans hreg, ?_⟩
    · show Saved ⟨G.set c im', (op.perform.exec env (s.world i)).disk⟩
      rw [hdisk]
      exact (hG.dataOnly hdw.dataOnly).save him₀ hspecs (hname.trans (hfits.named c im₀ him₀).symm)
    · apply hfits.set him₀ hspecs hname htables _ fun c' hne => hviews none c' hne
      rw [hown none (.inr rfl)]
      exact hwithin
  · intro j
    by_cases hj : j = i
    · subst hj
      show Fits reg _ (Function.update s.mem j (op.perform.exec env (s.world j)).mem j) _
      rw [Function.update_self, hchanged.mem]
      apply (h.client j).set him op.specs_newIndexes hname htables _ fun c' hne =>
        hviews (some j) c' hne
      rw [hown (some j) (.inl rfl)]
      exact hwithin
    · show Fits reg _ (Function.update s.mem i _ j) _
      rw [Function.update_of_ne hj]
      apply (h.client j).stale htables _ fun c' hne => hviews (some j) c' hne
      intro im₁ him₁
      have hother : V.op (tables s.disk) i op (some j) c = (V (some j) c).other op := by
        show (if c ≠ c then _ else if some j = some i ∨ some j = none then _ else _) = _
        rw [if_neg (not_not.mpr rfl), if_neg (by simpa using hj)]
      rw [hother]
      exact ((h.client j).within c im₁ him₁).other op

/-- An opening gives the client the saved indexes and writes nothing. -/
theorem opens (h : Sharing reg s V) (i : ι) (env : Env) :
    (s.step (.opens i env)).disk = s.disk ∧
      Sharing reg (s.step (.opens i env)) (V.step s (.opens i env)) := by
  obtain ⟨G, hG, hreg, hfits⟩ := h.saved
  have hexec : init.exec env ⟨OrdDict.empty, s.disk⟩ = ⟨G, s.disk⟩ :=
    Prog.exec_of_run (hG.run_init env h.logs)
  have hstep : s.step (.opens i env) = ⟨Function.update s.mem i G, s.disk⟩ := by
    show s.leave i (init.exec env ⟨OrdDict.empty, s.disk⟩) = _
    rw [hexec]
    rfl
  rw [hstep]
  refine ⟨rfl, h.logs, ⟨G, hG, hreg, ?_⟩, fun j => ?_⟩
  · show Fits reg s.disk G (Function.update V (some i) (V none) none)
    rw [Function.update_of_ne (by simp)]
    exact hfits
  · show Fits reg s.disk (Function.update s.mem i G j)
      (Function.update V (some i) (V none) (some j))
    by_cases hj : j = i
    · subst hj
      rw [Function.update_self, Function.update_self]
      exact hfits
    · rw [Function.update_of_ne hj, Function.update_of_ne (by simpa using hj)]
      exact h.client j

end Sharing

/-- The documents of an operation are clean. -/
def ClientStep.Clean : ClientStep ι → Prop
  | .opens _ _ => True
  | .op _ _ call => call.Clean

instance (a : ClientStep ι) : Decidable a.Clean :=
  match a with
  | .opens _ _ => inferInstanceAs (Decidable True)
  | .op _ _ call => inferInstanceAs (Decidable call.Clean)

/-- A run of clients, with their views and what they have completed. -/
structure SharedRun (ι : Type*) where
  clients : Clients ι
  views : Views ι
  done : List EngineOp

namespace SharedRun

/-- Clients that have not opened the directory yet, and a view of the saved indexes. -/
def start (ι : Type*) (d : Disk) (v : String → View) : SharedRun ι :=
  ⟨⟨fun _ => OrdDict.empty, d⟩, fun _ => v, []⟩

def step (r : SharedRun ι) (a : ClientStep ι) : SharedRun ι :=
  ⟨r.clients.step a, r.views.step r.clients a, r.done ++ (r.clients.completed a).toList⟩

def run (r : SharedRun ι) (steps : List (ClientStep ι)) : SharedRun ι := steps.foldl step r

/-- The clients are within their views, and the tables are those of the completed
operations, done one after another. -/
structure Good (reg : Catalog) (T : String → Table) (r : SharedRun ι) : Prop where
  sharing : Sharing reg r.clients r.views
  tables : JsonpySql.tables r.clients.disk = r.done.foldl tableStep T

variable {T : String → Table} {r : SharedRun ι}

theorem Good.step (h : Good reg T r) {a : ClientStep ι} (ha : a.Clean) :
    Good reg T (r.step a) := by
  cases a with
  | opens i env =>
      obtain ⟨hdisk, hsharing⟩ := h.sharing.opens i env
      refine ⟨hsharing, ?_⟩
      show JsonpySql.tables (r.clients.step (.opens i env)).disk = (r.done ++ []).foldl tableStep T
      rw [hdisk, List.append_nil]
      exact h.tables
  | op i env op =>
      rcases hdone : r.clients.completed (.op i env op) with _ | op'
      · have hviews : r.views.step r.clients (.op i env op) = r.views := by
          rw [Views.step, hdone]
          rfl
        have hsame : r.step (.op i env op) = r := by
          rw [SharedRun.step, h.sharing.exec_of_not_completed hdone, hviews, hdone]
          exact congrArg (SharedRun.mk r.clients r.views) (List.append_nil _)
        rw [hsame]
        exact h
      · obtain ⟨rfl, htables, hsharing⟩ := h.sharing.of_completed hdone ha
        have hviews : r.views.step r.clients (.op i env op') =
            r.views.op (JsonpySql.tables r.clients.disk) i op' := by
          rw [Views.step, hdone]
          rfl
        refine ⟨?_, ?_⟩
        · show Sharing reg _ (r.views.step r.clients (.op i env op'))
          rw [hviews]
          exact hsharing
        · show JsonpySql.tables (r.clients.step _).disk =
            (r.done ++ (r.clients.completed _).toList).foldl tableStep T
          rw [htables, hdone, Option.toList_some, List.foldl_append, ← h.tables]
          rfl

theorem Good.run {steps : List (ClientStep ι)} (h : Good reg T r) (ha : ∀ a ∈ steps, a.Clean) :
    Good reg T (r.run steps) := by
  induction steps generalizing r with
  | nil => exact h
  | cons a steps ih =>
      exact ih (h.step (ha a List.mem_cons_self)) fun b hb => ha b (List.mem_cons_of_mem _ hb)

/-- Views do not act. -/
theorem run_start (d : Disk) (v v' : String → View) (steps : List (ClientStep ι)) :
    ((SharedRun.start ι d v).run steps).clients = ((SharedRun.start ι d v').run steps).clients ∧
      ((SharedRun.start ι d v).run steps).done = ((SharedRun.start ι d v').run steps).done := by
  induction steps using List.reverseRecOn with
  | nil => exact ⟨rfl, rfl⟩
  | append_singleton steps a ih =>
      have hrun : ∀ v, (SharedRun.start ι d v).run (steps ++ [a]) =
          ((SharedRun.start ι d v).run steps).step a := fun v => List.foldl_append ..
      obtain ⟨hclients, hdone⟩ := ih
      rw [hrun, hrun, SharedRun.step, SharedRun.step, hclients, hdone]
      exact ⟨rfl, rfl⟩

omit [DecidableEq ι] in
/-- Clients of a directory that was left in order. -/
theorem Good.start {w : Database} {v : String → View} (hw : Saved w)
    (hlogs : w.disk.wal = OrdDict.empty)
    (hwithin : ∀ c im, w.mem.get? c = some im → im.Within (JsonpySql.tables w.disk c) (v c)) :
    Good (catalog w.mem) (JsonpySql.tables w.disk) (SharedRun.start ι w.disk v) where
  sharing := by
    refine ⟨hlogs, ⟨w.mem, hw, rfl, ?_⟩, fun i => ?_⟩
    · exact ⟨.inr rfl, hw.named, hwithin⟩
    · -- nothing is registered before the first opening
      refine ⟨.inl rfl, fun c im him => ?_, fun c im him => ?_⟩
      · cases him
      · cases him
  tables := rfl

/-- What `steps` leave of a document another client may have written: they contain no
opening of the client, no compaction of the collection by it and no write of the
document by it. -/
def LeavesUnseen (i : ι) (c id : String) : ClientStep ι → Prop
  | .opens j _ => j ≠ i
  | .op j _ op => j = i → op ≠ .compact c ∧ ∀ w, op = .write w → w.target ≠ (c, id)

theorem notMem_seen_step {i : ι} {c id : String} (h : id ∉ (r.views (some i) c).seen)
    {a : ClientStep ι} (ha : LeavesUnseen i c id a) : id ∉ ((r.step a).views (some i) c).seen := by
  cases a with
  | opens j env =>
      show id ∉ (Function.update r.views (some j) (r.views none) (some i) c).seen
      rw [Function.update_of_ne (by simpa using Ne.symm ha)]
      exact h
  | op j env op =>
      show id ∉ ((r.clients.completed (.op j env op)).elim r.views
        (r.views.op (JsonpySql.tables r.clients.disk) j) (some i) c).seen
      rcases hdone : r.clients.completed (.op j env op) with _ | op'
      · exact h
      · obtain rfl := Clients.eq_of_completed hdone
        intro hmem
        rcases Views.mem_seen_op hmem with hold | ⟨hown, hnew⟩
        · exact h hold
        · obtain rfl : i = j := by simpa using hown
          obtain ⟨hcompact, hwrite⟩ := ha rfl
          rcases hnew with hold | ⟨w, hw, htarget⟩ | ⟨hop, -⟩
          · exact h hold
          · exact hwrite w hw htarget
          · exact hcompact hop

theorem notMem_seen_run {i : ι} {c id : String} {steps : List (ClientStep ι)}
    (h : id ∉ (r.views (some i) c).seen) (ha : ∀ a ∈ steps, LeavesUnseen i c id a) :
    id ∉ ((r.run steps).views (some i) c).seen := by
  induction steps generalizing r with
  | nil => exact h
  | cons a steps ih =>
      exact ih (notMem_seen_step h (ha a List.mem_cons_self))
        fun b hb => ha b (List.mem_cons_of_mem _ hb)

/-- No call of the step writes the document. -/
def LeavesDocument (c id : String) : ClientStep ι → Prop
  | .opens _ _ => True
  | .op _ _ op => ∀ w, op = .write w → w.target ≠ (c, id)

/-- The document is not live, and nobody has seen it. -/
def Unknown (c id : String) (r : SharedRun ι) : Prop :=
  (JsonpySql.tables r.clients.disk c).liveRow id = none ∧ ∀ holder, id ∉ (r.views holder c).seen

theorem Unknown.step (hr : Good reg T r) {c id : String} (h : Unknown c id r)
    {a : ClientStep ι} (hclean : a.Clean) (ha : LeavesDocument c id a) :
    Unknown c id (r.step a) := by
  obtain ⟨hlive, hseen⟩ := h
  cases a with
  | opens j env =>
      refine ⟨?_, fun holder => ?_⟩
      · show (JsonpySql.tables (r.clients.step (.opens j env)).disk c).liveRow id = none
        rw [(hr.sharing.opens j env).1]
        exact hlive
      · show id ∉ (Function.update r.views (some j) (r.views none) holder c).seen
        by_cases hj : holder = some j
        · rw [hj, Function.update_self]
          exact hseen none
        · rw [Function.update_of_ne hj]
          exact hseen holder
  | op j env op =>
      rcases hdone : r.clients.completed (.op j env op) with _ | op'
      · refine ⟨?_, fun holder => ?_⟩
        · show (JsonpySql.tables (r.clients.step _).disk c).liveRow id = none
          rw [hr.sharing.exec_of_not_completed hdone]
          exact hlive
        · show id ∉ ((r.clients.completed (.op j env op)).elim r.views
            (r.views.op (JsonpySql.tables r.clients.disk) j) holder c).seen
          rw [hdone]
          exact hseen holder
      · obtain ⟨rfl, htables, -⟩ := hr.sharing.of_completed hdone hclean
        refine ⟨?_, fun holder => ?_⟩
        · show (JsonpySql.tables (r.clients.step _).disk c).liveRow id = none
          rw [htables]
          by_cases hc : c = op'.collection
          · subst hc
            rw [Function.update_self, liveRow_newTable]
            cases op' with
            | write w =>
                have hne : id ≠ w.docId := fun heq => ha w rfl (by rw [heq]; rfl)
                exact (if_neg hne).trans hlive
            | compact c' => exact hlive
          · rw [Function.update_of_ne hc]
            exact hlive
        · show id ∉ ((r.clients.completed (.op j env op')).elim r.views
            (r.views.op (JsonpySql.tables r.clients.disk) j) holder c).seen
          rw [hdone]
          intro hmem
          rcases Views.mem_seen_op hmem with hold | ⟨-, hold | ⟨w, hw, htarget⟩ | ⟨-, hsome⟩⟩
          · exact hseen holder hold
          · exact hseen (some j) hold
          · exact ha w hw htarget
          · rw [hlive] at hsome
            cases hsome

theorem Unknown.run {c id : String} {steps : List (ClientStep ι)} (hr : Good reg T r)
    (h : Unknown c id r) (hclean : ∀ a ∈ steps, a.Clean) (ha : ∀ a ∈ steps, LeavesDocument c id a) :
    Unknown c id (r.run steps) := by
  induction steps generalizing r with
  | nil => exact h
  | cons a steps ih =>
      have hfirst := hclean a List.mem_cons_self
      exact ih (hr.step hfirst) (h.step hr hfirst (ha a List.mem_cons_self))
        (fun b hb => hclean b (List.mem_cons_of_mem _ hb))
        fun b hb => ha b (List.mem_cons_of_mem _ hb)

omit [DecidableEq ι] in
/-- What a client reads is what the completed operations give. -/
theorem Good.get (h : Good reg T r) {i : ι} {c : String} (hc : c ∈ (r.clients.mem i).keys)
    {env : Env} (hfree : LockManager.blocked env (jsonlPath c) .shared = false) (id : String) :
    (StorageEngine.get c id).value env (r.clients.world i) =
      .ok ((r.done.foldl tableStep T c).get id) := by
  rw [Prog.value, run_engine_get (h.sharing.serving i) hc hfree]
  exact congrArg (fun T : String → Table => Except.ok ((T c).get id)) h.tables

omit [DecidableEq ι] in
theorem Good.scan (h : Good reg T r) {i : ι} {c : String} (hc : c ∈ (r.clients.mem i).keys)
    {env : Env} (hfree : LockManager.blocked env (jsonlPath c) .shared = false) :
    (StorageEngine.scan c).value env (r.clients.world i) =
      .ok (DocumentStore.rows (r.done.foldl tableStep T c)) := by
  rw [Prog.value, run_engine_scan (h.sharing.serving i) hc hfree]
  exact congrArg (fun T : String → Table => Except.ok (DocumentStore.rows (T c))) h.tables

omit [DecidableEq ι] in
/-- What an indexed lookup of a client answers. -/
theorem Good.lookup (h : Good reg T r) {i : ι} {c : String} {im : IndexManager}
    (him : (r.clients.mem i).get? c = some im) {field : String}
    (hfield : ∃ spec ∈ im.specs, spec.fields = [field]) (v : PyVal) (env : Env) :
    ∃ ids, (StorageEngine.lookup c field v).value env (r.clients.world i) = .ok ids ∧
      (∀ row ∈ DocumentStore.rows (r.done.foldl tableStep T c), ∀ id ∈ (r.views (some i) c).knows,
        row.docId = some id → (Doc.get row.doc field).toStr = v.toStr → id ∈ ids) ∧
      ∀ id ∈ ids, id ∈ (r.views (some i) c).seen := by
  obtain ⟨e, he, hfields, hfind⟩ := IndexManager.findIndexFor_of_mem hfield
  have hhas : im.hasIndexFor field = true := im.hasIndexFor_of_mem hfield
  have hlookup : im.lookup field v = InvertedIndex.ids e.2 v.toStr := by
    rw [IndexManager.lookup, hfind]
    rfl
  have hwithin := (h.sharing.client i).within c im him
  refine ⟨InvertedIndex.ids e.2 v.toStr, ?_, ?_, hwithin.seen e he _⟩
  · rw [Prog.value, run_lookup (h.sharing.serving i) him (.inl hhas), lookupIn, if_pos hhas,
      hlookup]
  · intro row hrow id hid hdoc hv
    apply hwithin.knows e he id hid
    rw [IndexManager.keyOf_eq_some_iff (tables_wf _ c), h.tables]
    exact ⟨row, hrow, hdoc, (IndexSpec.key_single hfields _).trans hv⟩

end SharedRun

/-- A database with one empty collection. -/
def newUsersDb : Database :=
  performCalls [(onlyClient, .createCollection "users" [⟨["email"], true⟩] false)] emptyDb

theorem newUsersDb_saved : Saved newUsersDb :=
  emptyDb_saved.performCalls ⟨rfl, by decide, trivial⟩

/-- Its view: all is known, and nothing is there. -/
def newUsersView : String → View := fun _ => ⟨Set.univ, ∅⟩

theorem newUsersDb_within {c : String} {im : IndexManager} (h : newUsersDb.mem.get? c = some im) :
    im.Within (tables newUsersDb.disk c) (newUsersView c) := by
  obtain ⟨rfl, rfl⟩ : "users" = c ∧ IndexManager.new "users" [⟨["email"], true⟩] = im := by
    have hmem : newUsersDb.mem = (OrdDict.empty : Registry).set "users"
      (IndexManager.new "users" [⟨["email"], true⟩]) := rfl
    rw [hmem, OrdDict.get?_set] at h
    split at h
    · next hc => exact ⟨hc.symm, Option.some.inj h⟩
    · cases h
  have hwithin := (IndexManager.Exact.new (t := tables newUsersDb.disk "users") (fun _ => rfl)
    "users" [⟨["email"], true⟩]).within
  have hview : View.rebuilt (tables newUsersDb.disk "users") = newUsersView "users" := by
    show (⟨_, {id | _}⟩ : View) = ⟨_, ∅⟩
    congr 1
    ext id
    exact iff_of_false Bool.false_ne_true (Set.notMem_empty id)
  rwa [hview] at hwithin

/-- Two clients open, and one of them writes. -/
def secondInserts : List (ClientStep Bool) :=
  [.opens true onlyClient, .opens false onlyClient,
    .op false onlyClient (.write (.insert "users" "1" (OrdDict.ofList [("email", .str "a")])))]

section Results

variable (w : Database)

/-- **Clients agree on documents.**  On a directory left in order, however the
calls of any number of clients interleave, every client reads the documents that
the completed operations give when they are done one after another, whoever
did them. -/
theorem shared_documents (v : String → View) (steps : List (ClientStep ι)) (hw : Saved w)
    (hlogs : w.disk.wal = OrdDict.empty) (hclean : ∀ a ∈ steps, a.Clean) :
    let r := (SharedRun.start ι w.disk v).run steps
    ∀ i, ∀ c ∈ (r.clients.mem i).keys, ∀ env,
      LockManager.blocked env (jsonlPath c) .shared = false →
      (∀ id, (StorageEngine.get c id).value env (r.clients.world i) =
        .ok ((r.done.foldl tableStep (tables w.disk) c).get id)) ∧
      (StorageEngine.scan c).value env (r.clients.world i) =
        .ok (DocumentStore.rows (r.done.foldl tableStep (tables w.disk) c)) := by
  intro r i c hc env hfree
  -- a view that promises nothing
  have hstart := SharedRun.Good.start (ι := ι) (v := fun _ => ⟨∅, Set.univ⟩) hw hlogs
    fun c im _ => ⟨fun _ _ id hid => (Set.notMem_empty id hid).elim, fun _ _ _ _ _ => trivial⟩
  have hgood := hstart.run hclean
  obtain ⟨hclients, hdone⟩ := SharedRun.run_start (ι := ι) w.disk (fun _ => ⟨∅, Set.univ⟩) v steps
  have hget := hgood.get (i := i) (hclients ▸ hc) hfree
  have hscan := hgood.scan (i := i) (hclients ▸ hc) hfree
  rw [hclients, hdone] at hget hscan
  exact ⟨hget, hscan⟩

theorem shared_documents_users :
    (StorageEngine.get "users" "1").value onlyClient
        (((SharedRun.start Bool newUsersDb.disk newUsersView).run
          secondInserts).clients.world true) =
      .ok (some (OrdDict.ofList [("email", .str "a")])) :=
  (shared_documents newUsersDb newUsersView secondInserts newUsersDb_saved rfl (by decide) true
    "users" (by decide) onlyClient rfl).1 "1"

/-- **Clients differ on indexes.**  An indexed lookup of a client lists every
live document it knows that has the value, and only documents it has seen. -/
theorem shared_lookups (v : String → View) (steps : List (ClientStep ι)) (hw : Saved w)
    (hlogs : w.disk.wal = OrdDict.empty)
    (hwithin : ∀ c im, w.mem.get? c = some im → im.Within (tables w.disk c) (v c))
    (hclean : ∀ a ∈ steps, a.Clean) :
    let r := (SharedRun.start ι w.disk v).run steps
    ∀ i c im, (r.clients.mem i).get? c = some im →
      ∀ field, (∃ spec ∈ im.specs, spec.fields = [field]) → ∀ value env, ∃ ids,
      (StorageEngine.lookup c field value).value env (r.clients.world i) = .ok ids ∧
      (∀ row ∈ DocumentStore.rows (r.done.foldl tableStep (tables w.disk) c),
        ∀ id ∈ (r.views (some i) c).knows,
        row.docId = some id → (Doc.get row.doc field).toStr = value.toStr → id ∈ ids) ∧
      ∀ id ∈ ids, id ∈ (r.views (some i) c).seen := by
  intro r i c im him field hfield value env
  exact ((SharedRun.Good.start hw hlogs hwithin).run hclean).lookup him hfield value env

/-- The client that inserted finds the document by its field. -/
theorem shared_lookups_users :
    ∃ ids, (StorageEngine.lookup "users" "email" (.str "a")).value onlyClient
        (((SharedRun.start Bool newUsersDb.disk newUsersView).run
          secondInserts).clients.world false) = .ok ids ∧ "1" ∈ ids := by
  obtain ⟨ids, hids, hknown, -⟩ := shared_lookups newUsersDb newUsersView secondInserts
    newUsersDb_saved rfl (fun _ _ => newUsersDb_within) (by decide) false "users" _ rfl "email"
    ⟨_, List.mem_singleton.mpr rfl, rfl⟩ (.str "a") onlyClient
  refine ⟨ids, hids, hknown (Record.ofDoc "1" (OrdDict.ofList [("email", .str "a")])) ?_ "1" ?_
    rfl rfl⟩
  · show _ ∈ DocumentStore.rows _
    exact List.mem_singleton.mpr rfl
  · exact Set.mem_insert _ _

/-- **What others insert is missed.**  A document first written after a client has
opened, by other clients, is read by its `get` as the completed operations give it,
but never listed by its indexed lookups, until it opens again, compacts the
collection or writes the document itself. -/
theorem missed_documents (v : String → View) (before after : List (ClientStep ι)) (i : ι)
    (env : Env) (c id : String) (hw : Saved w) (hlogs : w.disk.wal = OrdDict.empty)
    (hwithin : ∀ c im, w.mem.get? c = some im → im.Within (tables w.disk c) (v c))
    (hclean : ∀ a ∈ before ++ after, a.Clean)
    (hlive : (tables w.disk c).liveRow id = none) (hseen : id ∉ (v c).seen)
    (hbefore : ∀ a ∈ before, SharedRun.LeavesDocument c id a)
    (hafter : ∀ a ∈ after, SharedRun.LeavesUnseen i c id a) :
    let r := (SharedRun.start ι w.disk v).run (before ++ .opens i env :: after)
    ∀ im, (r.clients.mem i).get? c = some im → ∀ reader,
      (LockManager.blocked reader (jsonlPath c) .shared = false →
        (StorageEngine.get c id).value reader (r.clients.world i) =
          .ok ((r.done.foldl tableStep (tables w.disk) c).get id)) ∧
      ∀ field, (∃ spec ∈ im.specs, spec.fields = [field]) → ∀ value, ∃ ids,
        (StorageEngine.lookup c field value).value reader (r.clients.world i) = .ok ids ∧
          id ∉ ids := by
  intro r im him reader
  have hbeforeClean : ∀ a ∈ before, a.Clean := fun a ha => hclean a (List.mem_append_left _ ha)
  have hafterClean : ∀ a ∈ after, a.Clean := fun a ha => hclean a (List.mem_append_right _ ha)
  have hstart := SharedRun.Good.start (ι := ι) hw hlogs hwithin
  have hunknown : SharedRun.Unknown c id (SharedRun.start ι w.disk v) := ⟨hlive, fun _ => hseen⟩
  -- nobody knows of it when the client opens
  set r₁ := (SharedRun.start ι w.disk v).run before
  have hr₁ : SharedRun.Good _ _ r₁ := hstart.run hbeforeClean
  have hopened := (hunknown.run hstart hbeforeClean hbefore).step hr₁ (a := .opens i env)
    trivial trivial
  have hrun : r = (r₁.step (.opens i env)).run after := List.foldl_append ..
  have hgood : SharedRun.Good _ _ r :=
    hrun ▸ (hr₁.step (a := .opens i env) trivial).run hafterClean
  have hregistered : c ∈ (r.clients.mem i).keys := OrdDict.mem_keys_of_get? him
  refine ⟨fun hfree => hgood.get hregistered hfree id, fun field hfield value => ?_⟩
  obtain ⟨ids, hids, -, hlisted⟩ := hgood.lookup him hfield value reader
  refine ⟨ids, hids, fun hmem => ?_⟩
  apply SharedRun.notMem_seen_run (hopened.2 (some i)) hafter
  rw [← hrun]
  exact hlisted id hmem

/-- The other client can read it, and does not find it by its field. -/
theorem missed_documents_users :
    let w := ((SharedRun.start Bool newUsersDb.disk newUsersView).run
      secondInserts).clients.world true
    (StorageEngine.get "users" "1").value onlyClient w =
      .ok (some (OrdDict.ofList [("email", .str "a")])) ∧
    ∃ ids, (StorageEngine.lookup "users" "email" (.str "a")).value onlyClient w = .ok ids ∧
      "1" ∉ ids := by
  have hmissed := missed_documents newUsersDb newUsersView [] (secondInserts.drop 1) true
    onlyClient "users" "1" newUsersDb_saved rfl (fun _ _ => newUsersDb_within) (by decide) rfl id
    (fun _ ha => absurd ha List.not_mem_nil) ?_ _ rfl onlyClient
  · exact ⟨hmissed.1 rfl, hmissed.2 "email" ⟨_, List.mem_singleton.mpr rfl, rfl⟩ (.str "a")⟩
  -- the second client opens and inserts
  rintro a ha
  rcases List.mem_cons.mp ha with rfl | ha
  · exact Bool.false_ne_true
  · obtain rfl := List.mem_singleton.mp ha
    exact fun h => absurd h Bool.false_ne_true

end Results

end JsonpySql
