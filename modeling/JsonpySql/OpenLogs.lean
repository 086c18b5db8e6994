/-
JsonpySql/OpenLogs.lean

Opening a directory with any number of logs.

Recovery takes the logs one after another, in the order the directory lists them, and
removes each when it has replayed it, or has found it corrupt.  A log of which it can
do neither (`WAL.handled`) makes every opening raise.  `Recovering reg names T d` says
that a recovery of the directory in the order `names` would leave the tables `T`; one
that is interrupted has come as far as some later part of `names`
(`Recovering.init`), since what it has replayed of a log is absorbed when that
log, the first one left, is replayed again.

A log says nothing of who writes it.  So an engine that opens the directory while
others have transactions open commits these for them, and the owners can then
neither commit them nor roll them back (`opening_commits`).
-/
import JsonpySql.FailedCommit

namespace JsonpySql

open StorageEngine

variable {reg : Catalog} {wal : OrdDict String (List WalLine)} {T T' : String → Table} {d : Disk}
  {env : Env} {w : Database} {file : String} {lines : List WalLine} {names : List String}

/-! ### One log -/

/-- The entry of a line, if it is one. -/
def WalLine.entry? : WalLine → Option WALEntry
  | .entry e => some e
  | _ => none

/-- The entries a recovery replays of a log: none of a corrupt one. -/
def WAL.replayed (lines : List WalLine) : List WALEntry :=
  ((lines.mapM WalLine.entry?).map WAL.dedup).getD []

/-- The first line that is no entry, if any, is corrupt. -/
def WAL.readsOn : List WalLine → Bool
  | .entry _ :: lines => WAL.readsOn lines
  | .foreign _ :: _ => false
  | _ => true

/-- A log that recovery can replay or discard. -/
def WAL.handled (lines : List WalLine) : Bool :=
  (lines.findSome? WAL.decodeError).isNone && WAL.readsOn lines

theorem WAL.replayed_entries (entries : List WALEntry) :
    WAL.replayed (entries.map .entry) = WAL.dedup entries := by
  have hmap : (entries.map WalLine.entry).mapM WalLine.entry? = some entries := by
    induction entries with
    | nil => rfl
    | cons e entries ih => simp [List.mapM_cons, WalLine.entry?, ih]
  rw [WAL.replayed, hmap]
  rfl

theorem WAL.handled_entries (entries : List WALEntry) :
    WAL.handled (entries.map .entry) = true := by
  rw [WAL.handled, WAL.findSome?_decodeError_entries]
  show WAL.readsOn (entries.map .entry) = true
  induction entries with
  | nil => rfl
  | cons e entries ih => exact ih

/-- A log of text is a list of entries, or the first other line raises: what recovery
catches, or else a `TypeError`. -/
theorem WAL.parseLines_cases (path : String) (htext : lines.findSome? WAL.decodeError = none) :
    (∃ entries : List WALEntry, lines = entries.map .entry) ∨
      lines.mapM WalLine.entry? = none ∧ ∀ lineno m, ∃ e,
        WAL.parseLines path lines lineno m = .error e ∧
          ((WAL.readsOn lines = true ∧ ∃ msg, e = .walReplayError msg) ∨
            WAL.readsOn lines = false ∧ ∃ msg, e = .typeError msg) := by
  induction lines with
  | nil => exact .inl ⟨[], rfl⟩
  | cons line lines ih =>
      cases line with
      | corrupt msg => exact .inr ⟨rfl, fun _ _ => ⟨_, rfl, .inl ⟨rfl, _, rfl⟩⟩⟩
      | foreign msg => exact .inr ⟨rfl, fun _ _ => ⟨_, rfl, .inr ⟨rfl, _, rfl⟩⟩⟩
      | undecodable msg => cases htext
      | entry e =>
          rcases ih htext with ⟨entries, rfl⟩ | ⟨hnone, herror⟩
          · exact .inl ⟨e :: entries, rfl⟩
          · refine .inr ⟨?_, fun lineno m => herror _ _⟩
            rw [List.mapM_cons, hnone]
            rfl

/-- What recovery does with a log that cannot be read. -/
theorem run_recoverFile_of_error {e : PyErr}
    (hread : (WAL.readEntries file : EngineM _).run env w = ⟨.error e, w.mem, []⟩) :
    (recoverFile file).run env w = match e with
      | .walReplayError _ => (WAL.delete file : EngineM Unit).run env w
      | e => ⟨.error e, w.mem, []⟩ := by
  have hsome : (some <$> (WAL.readEntries file : EngineM _)).run env w = ⟨.error e, w.mem, []⟩ :=
    Prog.run_bind_error hread
  cases e with
  | walReplayError msg =>
      refine Prog.run_bind_read (a := none) ?_
      rw [Prog.run_tryCatch, hsome, Prog.exec, hsome]
      rfl
  | _ =>
      refine Prog.run_bind_error ?_
      rw [Prog.run_tryCatch, hsome, Prog.exec, hsome]
      rfl

/-- A corrupt log is removed unread. -/
theorem run_recoverFile_of_corrupt (hlog : w.disk.wal.get? file = some lines)
    (htext : lines.findSome? WAL.decodeError = none) {msg : String}
    (herror : WAL.parseLines (env.path file) lines 1 OrdDict.empty =
      .error (.walReplayError msg)) :
    (recoverFile file).run env w = (WAL.delete file : EngineM Unit).run env w := by
  refine run_recoverFile_of_error (e := .walReplayError msg) ?_
  rw [WAL.run_readEntries_of_text hlog htext, herror]
  rfl

/-- **A log that is not handled** makes recovery raise, and nothing is written. -/
theorem run_recoverFile_of_not_handled (env : Env) (hlog : w.disk.wal.get? file = some lines)
    (h : WAL.handled lines = false) :
    ∃ e, (recoverFile file).run env w = ⟨.error e, w.mem, []⟩ := by
  rcases htext : lines.findSome? WAL.decodeError with _ | e
  · have hstop : WAL.readsOn lines = false := by simpa [WAL.handled, htext] using h
    rcases WAL.parseLines_cases (env.path file) htext with ⟨entries, rfl⟩ | ⟨-, herror⟩
    · rw [WAL.handled_entries] at h
      cases h
    · obtain ⟨e, hparse, ⟨hon, -⟩ | ⟨-, msg, rfl⟩⟩ := herror 1 OrdDict.empty
      · cases hstop.symm.trans hon
      · refine ⟨_, run_recoverFile_of_error (e := .typeError msg) ?_⟩
        rw [WAL.run_readEntries_of_text hlog htext, hparse]
        rfl
  · obtain ⟨line, -, hline⟩ := List.exists_of_findSome?_eq_some htext
    obtain ⟨msg, rfl⟩ : ∃ msg, e = .unicodeDecodeError msg := by
      cases line with
      | undecodable msg => exact ⟨msg, (Option.some.inj hline).symm⟩
      | entry _ | corrupt _ | foreign _ => cases hline
    exact ⟨_, run_recoverFile_of_error (WAL.run_readEntries_of_decodeError hlog htext)⟩

/-- **Recovering one log**, readable or corrupt, whole or interrupted. -/
theorem recoverFile_turn (env : Env) (h : Open reg wal w T) (hlog : wal.get? file = some lines)
    (hhandled : WAL.handled lines = true) :
    (recoverFile file).value env w = .ok () ∧
      Open reg (wal.erase file) ((recoverFile file).exec env w)
        ((WAL.replayed lines).foldl (replayStep reg) T) ∧
      ∀ k, (∃ p, p <+: WAL.replayed lines ∧
          Holds reg wal (p.foldl (replayStep reg) T) ((recoverFile file).crashAt env w k)) ∨
        Holds reg (wal.erase file) ((WAL.replayed lines).foldl (replayStep reg) T)
          ((recoverFile file).crashAt env w k) := by
  obtain ⟨htext, hon⟩ : lines.findSome? WAL.decodeError = none ∧ WAL.readsOn lines = true := by
    simpa [WAL.handled] using hhandled
  rcases WAL.parseLines_cases (env.path file) htext with ⟨entries, rfl⟩ | ⟨hnone, herror⟩
  · rw [WAL.replayed_entries]
    exact recoverFile_spec env h hlog
  · -- nothing is replayed
    have hnil : WAL.replayed lines = [] := by
      rw [WAL.replayed, hnone]
      rfl
    obtain ⟨e, hparse, ⟨-, msg, rfl⟩ | ⟨hoff, -⟩⟩ := herror 1 OrdDict.empty
    · have hrun := run_recoverFile_of_corrupt (h.holds.wal ▸ hlog) htext hparse
      rw [hnil, Prog.value, Prog.exec]
      simp only [Prog.crashAt, hrun]
      refine ⟨rfl, ⟨h.catalog, h.holds.unlinkWal file⟩, fun k => ?_⟩
      rcases crashAt_delete env file h.holds k with hbefore | hafter
      · exact .inl ⟨[], List.prefix_rfl, hbefore⟩
      · exact .inr hafter
    · cases hon.symm.trans hoff

/-! ### All logs -/

/-- What a recovery makes of the tables with one log. -/
def logStep (reg : Catalog) (wal : OrdDict String (List WalLine)) (T : String → Table)
    (name : String) : String → Table :=
  (WAL.replayed ((wal.get? name).getD [])).foldl (replayStep reg) T

/-- The tables after the logs of these names, in their order. -/
def afterLogs (reg : Catalog) (wal : OrdDict String (List WalLine)) (names : List String)
    (T : String → Table) : String → Table :=
  names.foldl (logStep reg wal) T

/-- Only the entries on registered collections count. -/
theorem foldl_replayStep_filter (entries : List WALEntry) (T : String → Table) :
    entries.foldl (replayStep reg) T = store.run T
      ((entries.filter fun e => e.collection ∈ reg.keys).map WALEntry.toPut) := by
  rw [← foldl_entryTableStep, List.foldl_filter]
  congr 1
  funext T e
  rw [replayStep]
  simp

/-- A partial replay is absorbed by the next one of the same log. -/
theorem replay_prefix {p entries : List WALEntry} (hp : p <+: entries) :
    entries.foldl (replayStep reg) (p.foldl (replayStep reg) T) =
      entries.foldl (replayStep reg) T := by
  rw [foldl_replayStep_filter, foldl_replayStep_filter, foldl_replayStep_filter]
  exact store.run_run_prefix T ((hp.filter _).map _)

/-- The removal of a log does not show to the others. -/
theorem afterLogs_erase {name : String} (h : name ∉ names) :
    afterLogs reg (wal.erase name) names T = afterLogs reg wal names T := by
  refine List.foldl_ext _ _ _ fun T other hother => ?_
  have hne : other ≠ name := fun heq => h (heq ▸ hother)
  rw [logStep, OrdDict.get?_erase, if_neg hne]
  rfl

/-- The first of the logs is removed. -/
theorem perm_keys_erase {name : String} (h : (name :: names).Perm wal.keys) :
    name ∉ names ∧ names.Perm (wal.erase name).keys := by
  obtain ⟨hnot, -⟩ := List.nodup_cons.mp (h.nodup_iff.mpr wal.keys_nodup)
  refine ⟨hnot, ?_⟩
  rw [OrdDict.keys_erase]
  have hfilter := h.filter (· ≠ name)
  rw [List.filter_cons_of_neg (by simp)] at hfilter
  have hself : names.filter (· ≠ name) = names :=
    List.filter_eq_self.mpr fun other hother => by
      have hne : other ≠ name := fun heq => hnot (heq ▸ hother)
      simpa using hne
  rwa [hself] at hfilter

/-- Every log can be replayed or discarded. -/
def AllHandled (wal : OrdDict String (List WalLine)) : Prop :=
  ∀ e ∈ wal.entries, WAL.handled e.2 = true

instance (wal : OrdDict String (List WalLine)) : Decidable (AllHandled wal) :=
  inferInstanceAs (Decidable (∀ e ∈ wal.entries, _))

theorem AllHandled.erase (h : AllHandled wal) (name : String) : AllHandled (wal.erase name) :=
  fun e he => h e (List.mem_of_mem_filter he)

/-- A recovery that takes the logs of the directory in this order would leave the
tables `T'`. -/
def Recovering (reg : Catalog) (names : List String) (T' : String → Table) (d : Disk) : Prop :=
  ∃ wal T, Holds reg wal T d ∧ names.Perm wal.keys ∧ AllHandled wal ∧
    afterLogs reg wal names T = T'

/-- The loop over the logs, whole or interrupted. -/
theorem recoverFiles_spec (env : Env) (h : Open reg wal w T) (hnames : names.Perm wal.keys)
    (hhandled : AllHandled wal) :
    (names.forM recoverFile).value env w = .ok () ∧
      Open reg OrdDict.empty ((names.forM recoverFile).exec env w)
        (afterLogs reg wal names T) ∧
      ∀ k, ∃ left, left <:+ names ∧ Recovering reg left (afterLogs reg wal names T)
        ((names.forM recoverFile).crashAt env w k) := by
  induction names generalizing w wal T with
  | nil =>
      obtain rfl : wal = OrdDict.empty := by
        refine OrdDict.ext_entries ?_
        have hkeys : wal.keys = [] := hnames.nil_eq.symm
        exact List.map_eq_nil_iff.mp hkeys
      refine ⟨rfl, h, fun k => ⟨[], List.suffix_rfl, OrdDict.empty, T, ?_, hnames, hhandled, rfl⟩⟩
      show Holds _ _ _ (applyAll w.disk ([].take k))
      rw [List.take_nil]
      exact h.holds
  | cons name names ih =>
      obtain ⟨hnot, hrest⟩ := perm_keys_erase hnames
      obtain ⟨lines, hlog⟩ := OrdDict.exists_get?_of_mem (hnames.subset List.mem_cons_self)
      obtain ⟨hok, hopen, hcrash⟩ :=
        recoverFile_turn env h hlog (hhandled (name, lines) (OrdDict.mem_entries_iff.mpr hlog))
      obtain ⟨hok', hopen', hcrash'⟩ := ih hopen hrest (hhandled.erase name)
      -- this log first, then the others
      have hafter : ∀ T, afterLogs reg (wal.erase name) names
          ((WAL.replayed lines).foldl (replayStep reg) T) =
            afterLogs reg wal (name :: names) T := by
        intro T
        rw [afterLogs_erase hnot, afterLogs, afterLogs, List.foldl_cons, logStep, hlog]
        rfl
      rw [hafter] at hopen' hcrash'
      show (recoverFile name >>= fun _ => names.forM recoverFile).value env w = _ ∧
        Open reg _ ((recoverFile name >>= fun _ => names.forM recoverFile).exec env w)
          _ ∧ ∀ k, ∃ left, left <:+ _ ∧ Recovering reg left _
          ((recoverFile name >>= fun _ => names.forM recoverFile).crashAt env w k)
      refine ⟨(Prog.value_bind_ok hok).trans hok', ?_, fun k => ?_⟩
      · rw [Prog.exec_bind_ok hok]
        exact hopen'
      · rw [Prog.crashAt_bind_ok hok]
        split
        · rcases hcrash k with ⟨p, hp, hd⟩ | hd
          · refine ⟨name :: names, List.suffix_rfl, wal, _, hd, hnames, hhandled, ?_⟩
            rw [← hafter, ← hafter, replay_prefix hp]
          · exact ⟨names, List.suffix_cons name names, _, _, hd, hrest, hhandled.erase name,
              hafter T⟩
        · obtain ⟨left, hleft, hd⟩ := hcrash' (k - ((recoverFile name).run env w).writes.length)
          exact ⟨left, hleft.trans (List.suffix_cons name names), hd⟩

/-- **A log that is not handled** stops the loop, wherever it stands. -/
theorem recoverFiles_raises (env : Env) (h : Open reg wal w T) (hnames : names.Perm wal.keys)
    (hbad : ¬AllHandled wal) : ∃ e, (names.forM recoverFile).value env w = .error e := by
  induction names generalizing w wal T with
  | nil =>
      refine absurd (fun e he => ?_) hbad
      have hkey := hnames.mem_iff.mpr (List.mem_map_of_mem he)
      exact absurd hkey List.not_mem_nil
  | cons name names ih =>
      obtain ⟨-, hrest⟩ := perm_keys_erase hnames
      obtain ⟨lines, hlog⟩ := OrdDict.exists_get?_of_mem (hnames.subset List.mem_cons_self)
      show ∃ e, (recoverFile name >>= fun _ => names.forM recoverFile).value env w = .error e
      rcases hhandled : WAL.handled lines with _ | _
      · obtain ⟨e, hrun⟩ := run_recoverFile_of_not_handled env (h.holds.wal ▸ hlog) hhandled
        exact ⟨e, Prog.value_bind_error (congrArg Outcome.result hrun)⟩
      · obtain ⟨hok, hopen, -⟩ := recoverFile_turn env h hlog hhandled
        rw [Prog.value_bind_ok hok]
        refine ih hopen hrest fun hall => hbad ?_
        rintro ⟨other, lines'⟩ he
        rcases eq_or_ne other name with rfl | hne
        · obtain rfl : lines' = lines :=
            Option.some.inj ((OrdDict.mem_entries_iff.mp he).symm.trans hlog)
          exact hhandled
        · refine hall (other, lines') (OrdDict.mem_entries_iff.mpr ?_)
          rw [OrdDict.get?_erase, if_neg hne]
          exact OrdDict.mem_entries_iff.mp he

theorem perm_findWalFiles (env : Env) (d : Disk) : (WAL.findWalFiles env d).Perm d.wal.keys :=
  List.perm_insertionSort _ _

theorem run_recoverWal (env : Env) (w : Database) : recoverWal.run env w =
    ((WAL.findWalFiles env w.disk).forM recoverFile).run env w := by
  rw [recoverWal, Prog.run_bind_read (Prog.run_env env w),
    Prog.run_bind_read (Prog.run_getDisk env w)]

/-- **Opening a directory**, whole or interrupted. -/
theorem Recovering.init (env : Env) (h : Recovering reg (WAL.findWalFiles env d) T' d) :
    init.value env ⟨OrdDict.empty, d⟩ = .ok () ∧
      Open reg OrdDict.empty (init.exec env ⟨OrdDict.empty, d⟩) T' ∧
      ∀ k, ∃ left, left <:+ WAL.findWalFiles env d ∧
        Recovering reg left T' (init.crashAt env ⟨OrdDict.empty, d⟩ k) := by
  obtain ⟨wal, T, hd, hnames, hhandled, rfl⟩ := h
  obtain ⟨hok, hopen, hcrash⟩ := loadManifest_spec env hd
  obtain ⟨hrok, hropen, hrcrash⟩ := recoverFiles_spec env hopen hnames hhandled
  have hlisted : WAL.findWalFiles env (loadManifest.exec env ⟨OrdDict.empty, d⟩).disk =
      WAL.findWalFiles env d := by
    rw [WAL.findWalFiles, WAL.findWalFiles, hopen.holds.wal, hd.wal]
  have hrun := run_recoverWal env (loadManifest.exec env ⟨OrdDict.empty, d⟩)
  rw [hlisted] at hrun
  refine ⟨(Prog.value_bind_ok hok).trans ((congrArg Outcome.result hrun).trans hrok), ?_,
    fun k => ?_⟩
  · rw [StorageEngine.init, Prog.exec_bind_ok hok, Prog.exec_congr hrun]
    exact hropen
  · rw [StorageEngine.init, Prog.crashAt_bind_ok hok]
    split
    · exact ⟨_, List.suffix_rfl, wal, T, hcrash k, hnames, hhandled, rfl⟩
    · rw [Prog.crashAt, hrun]
      exact hrcrash _

/-! ### One order -/

/-- The directory lists its files in one order, whatever files there are. -/
structure Env.ListsInOrder (env : Env) : Prop where
  total : ∀ a b, env.listedBefore a b = true ∨ env.listedBefore b a = true
  trans : ∀ a b c, env.listedBefore a b = true → env.listedBefore b c = true →
    env.listedBefore a c = true
  antisymm : ∀ a b, env.listedBefore a b = true → env.listedBefore b a = true → a = b

/-- The logs that are left are listed as before. -/
theorem Env.ListsInOrder.findWalFiles_of_suffix (hlist : env.ListsInOrder) {d' : Disk}
    {left : List String} (hleft : left <:+ WAL.findWalFiles env d) (hperm : left.Perm d'.wal.keys) :
    WAL.findWalFiles env d' = left := by
  have htotal : Std.Total fun a b => env.listedBefore a b = true := ⟨hlist.total⟩
  have htrans : IsTrans String fun a b => env.listedBefore a b = true := ⟨hlist.trans⟩
  have hsorted : left.Pairwise fun a b => env.listedBefore a b = true :=
    (List.pairwise_insertionSort _ d.wal.keys).sublist hleft.sublist
  refine List.Perm.eq_of_pairwise (fun a b _ _ => hlist.antisymm a b)
    (List.pairwise_insertionSort _ _) hsorted ((perm_findWalFiles env d').trans hperm.symm)

/-- Interrupted recoveries, all with the same order of the logs. -/
theorem Recovering.crashedRecoveries (hlist : env.ListsInOrder) {crashes : List (Env × ℕ)}
    (hsame : ∀ c ∈ crashes, c.1.listedBefore = env.listedBefore)
    (h : Recovering reg (WAL.findWalFiles env d) T' d) :
    Recovering reg (WAL.findWalFiles env (JsonpySql.crashedRecoveries crashes d)) T'
      (JsonpySql.crashedRecoveries crashes d) := by
  induction crashes generalizing d with
  | nil => exact h
  | cons c crashes ih =>
      have hfiles : WAL.findWalFiles c.1 d = WAL.findWalFiles env d := by
        rw [WAL.findWalFiles, WAL.findWalFiles, hsame c List.mem_cons_self]
      obtain ⟨-, -, hcrash⟩ := Recovering.init c.1 (hfiles.symm ▸ h)
      obtain ⟨left, hleft, hd⟩ := hcrash c.2
      have hleft' :
          WAL.findWalFiles env (StorageEngine.init.crashAt c.1 ⟨OrdDict.empty, d⟩ c.2) = left := by
        obtain ⟨wal, T, hholds, hperm, -⟩ := hd
        exact hlist.findWalFiles_of_suffix (hfiles ▸ hleft) (hholds.wal ▸ hperm)
      exact ih (fun c' hc' => hsame c' (List.mem_cons_of_mem _ hc')) (hleft'.symm ▸ hd)

/-- **Interrupted recoveries resume.**  A directory can be opened just if recovery
handles each of its logs.  Then stop any number of its recoveries anywhere: the first
one that runs to its end answers as the first of all would have, and leaves no log. -/
theorem recovery_resumes (crashes : List (Env × ℕ)) (henv : env.Alone) (hlist : env.ListsInOrder)
    (hsame : ∀ c ∈ crashes, c.1.listedBefore = env.listedBefore)
    (hmanifest : d.Registers reg)
    (hfiles : ∀ c ∈ reg.keys, (d.jsonl (jsonlPath c)).isSome)
    (htext : ∀ e ∈ reg.entries, IndexManager.Readable d e.1 e.2) :
    let d' := crashedRecoveries crashes d
    let recovered := init.exec env ⟨OrdDict.empty, d'⟩
    (init.value env ⟨OrdDict.empty, d⟩ = .ok () ↔ AllHandled d.wal) ∧
      (AllHandled d.wal → init.value env ⟨OrdDict.empty, d'⟩ = .ok () ∧
        tables recovered.disk = afterLogs reg d.wal (WAL.findWalFiles env d) (tables d) ∧
        SameAnswers env (init.exec env ⟨OrdDict.empty, d⟩) recovered ∧
        recovered.disk.wal = OrdDict.empty) := by
  intro d' recovered
  have hholds : Holds reg d.wal (tables d) d := ⟨hmanifest, hfiles, rfl, rfl, htext⟩
  have hrecovering : AllHandled d.wal → Recovering reg (WAL.findWalFiles env d)
      (afterLogs reg d.wal (WAL.findWalFiles env d) (tables d)) d := fun hhandled =>
    ⟨d.wal, tables d, hholds, perm_findWalFiles env d, hhandled, rfl⟩
  refine ⟨⟨fun hok => ?_, fun hhandled => ((hrecovering hhandled).init env).1⟩, fun hhandled => ?_⟩
  · by_contra hbad
    obtain ⟨hload, hopen, -⟩ := loadManifest_spec env hholds
    obtain ⟨e, herr⟩ := recoverFiles_raises env hopen
      (hopen.holds.wal ▸ perm_findWalFiles env (loadManifest.exec env ⟨OrdDict.empty, d⟩).disk) hbad
    have hrecover : recoverWal.value env (loadManifest.exec env ⟨OrdDict.empty, d⟩) = .error e := by
      rw [Prog.value, run_recoverWal]
      exact herr
    cases ((Prog.value_bind_ok hload).trans hrecover).symm.trans hok
  · have h := hrecovering hhandled
    obtain ⟨-, honce, -⟩ := h.init env
    obtain ⟨hok, hresumed, -⟩ := (h.crashedRecoveries hlist hsame).init env
    refine ⟨hok, hresumed.holds.tables, ?_, hresumed.holds.wal⟩
    apply sameAnswers_of_eq henv honce.serving hresumed.serving
      (hresumed.keys.trans honce.keys.symm)
    rw [hresumed.holds.tables, honce.holds.tables]

theorem onlyClient_listsInOrder : onlyClient.ListsInOrder where
  total a b := by simpa [onlyClient] using String.le_total a b
  trans a b c hab hbc := by
    simp only [onlyClient, decide_eq_true_eq] at hab hbc ⊢
    exact String.le_trans hab hbc
  antisymm a b hab hba := by
    simp only [onlyClient, decide_eq_true_eq] at hab hba
    exact String.le_antisymm hab hba

/-- A log of two lines and a corrupt one; the first recovery stops before it removes
the first, the second after it. -/
theorem recovery_resumes_users :
    let d := applyAll usersDb.disk [.appendWal "a.wal" (.entry ⟨.insert, "users", "1", none⟩),
      .appendWal "a.wal" (.entry ⟨.delete, "users", "2", none⟩),
      .appendWal "b.wal" (.corrupt "Expecting value")]
    let recovered :=
      init.exec onlyClient ⟨OrdDict.empty, crashedRecoveries [(onlyClient, 3), (onlyClient, 9)] d⟩
    SameAnswers onlyClient (init.exec onlyClient ⟨OrdDict.empty, d⟩) recovered ∧
      recovered.disk.wal = OrdDict.empty :=
  ((recovery_resumes [(onlyClient, 3), (onlyClient, 9)] onlyClient_alone onlyClient_listsInOrder
    (by simp) (.inl rfl) (by decide) (by decide)).2 (by decide)).2.2

/-! ### Open transactions -/

/-- What every transaction has buffered after the steps of all clients. -/
def openBuffers (es : List Event) : Buffers := es.foldl (fun B e => e.buffers B) fun _ => []

/-- An engine with open transactions: their logs spell out the buffers, which name
registered collections only. -/
structure Underway (reg : Catalog) (B : Buffers) (w : Database) (T : String → Table) : Prop where
  isOpen : Open reg w.disk.wal w T
  logged : Logged (fun _ => True) B w.disk
  registered : ∀ file, ∀ op ∈ B file, op.collection ∈ reg.keys

namespace Underway

variable {B : Buffers}

/-- **One step of a client.** -/
theorem play (h : Underway reg B w T) (henv : env.Alone) {e : Event}
    (hreg : ∀ op ∈ e.op?, op.collection ∈ reg.keys) (hne : e.Committable B) :
    e.play.value env w = .ok () ∧
      Underway reg (e.buffers B) (e.play.exec env w) ((e.effect B).foldl tableStep T) := by
  cases e with
  | engine op =>
      have hc : op.collection ∈ w.mem.keys := h.isOpen.keys ▸ hreg op rfl
      obtain ⟨im, him⟩ := OrdDict.exists_get?_of_mem hc
      obtain ⟨hok, hchanged⟩ := perform_spec_of_alone op henv h.isOpen.serving him
      have hopen := hchanged.isOpen h.isOpen him op.specs_newIndexes
      refine ⟨hok, ?_, fun file _ => ?_, h.registered⟩
      · rw [← hchanged.wal, h.isOpen.holds.tables] at hopen
        exact hopen
      · show (op.perform.exec env w).disk.wal.get? file = _
        rw [hchanged.wal]
        exact h.logged file trivial
  | begin => exact ⟨rfl, h⟩
  | buffer file op =>
      have hholds := h.isOpen.holds.appendWal file (.entry op.entry.viaJson)
      refine ⟨rfl, ⟨h.isOpen.catalog, ?_⟩, h.logged.buffer trivial op, ?_⟩
      · exact { hholds with wal := rfl }
      · intro g op' hop'
        change op' ∈ Function.update B file (B file ++ [op]) g at hop'
        rcases eq_or_ne g file with rfl | hg
        · rw [Function.update_self, List.mem_append, List.mem_singleton] at hop'
          rcases hop' with hold | rfl
          · exact h.registered g op' hold
          · exact hreg _ rfl
        · rw [Function.update_of_ne hg] at hop'
          exact h.registered g op' hop'
  | commit file =>
      have hlog : w.disk.wal.get? file = some (logOf (B file)) := by
        rw [h.logged file trivial, if_neg hne]
      have hentries : ∀ e ∈ WAL.dedup (walEntries (B file)), e.collection ∈ reg.keys := by
        intro e he
        obtain ⟨op, hop, rfl⟩ := mem_dedup_walEntries he
        rw [WriteOp.collection_entry]
        exact h.registered file op hop
      obtain ⟨hok, hopen, -⟩ := loop_then_delete file (applyEntries_spec env _ h.isOpen hentries)
      rw [foldl_entryTableStep, store_run_walEntries, ← foldl_tableStep_write] at hopen
      have hrun := run_commit env hlog
      show (Transaction.commit file).value env w = .ok () ∧
        Underway reg _ ((Transaction.commit file).exec env w) _
      rw [Prog.value, Prog.exec_congr hrun, hrun]
      refine ⟨hok, ⟨hopen.catalog, { hopen.holds with wal := rfl }⟩, fun g _ => ?_,
        buffered_close (P := fun op => op.collection ∈ reg.keys) h.registered file⟩
      rw [hopen.holds.wal]
      exact h.logged.unlink file g trivial
  | rollback file =>
      have hholds := h.isOpen.holds.unlinkWal file
      exact ⟨rfl, ⟨h.isOpen.catalog, { hholds with wal := rfl }⟩, h.logged.unlink file,
        buffered_close (P := fun op => op.collection ∈ reg.keys) h.registered file⟩

/-- **An interleaving.** -/
theorem playAll (h : Underway reg B w T) (henv : env.Alone) {es : List Event}
    (hreg : ∀ e ∈ es, ∀ op ∈ e.op?, op.collection ∈ reg.keys) (hne : CommittableFrom B es) :
    Underway reg (es.foldl (fun B e => e.buffers B) B) ((JsonpySql.playAll es).exec env w)
      ((completedFrom B es).foldl tableStep T) := by
  induction es generalizing w B T with
  | nil => exact h
  | cons e es ih =>
      obtain ⟨hok, h'⟩ := h.play henv (hreg e List.mem_cons_self) hne.1
      show Underway reg _ ((e.play >>= fun _ => JsonpySql.playAll es).exec env w)
        ((e.effect B ++ completedFrom (e.buffers B) es).foldl tableStep T)
      rw [Prog.exec_bind_ok hok, List.foldl_append]
      exact ih h' (fun e' he' => hreg e' (List.mem_cons_of_mem _ he')) hne.2

/-- Every log is a list of entries. -/
theorem allHandled (h : Underway reg B w T) : AllHandled w.disk.wal := by
  rintro ⟨file, lines⟩ he
  have hget := OrdDict.mem_entries_iff.mp he
  rw [h.logged file trivial] at hget
  split at hget
  · cases hget
  · obtain rfl := Option.some.inj hget
    show WAL.handled (logOf (B file)) = true
    rw [logOf_eq]
    exact WAL.handled_entries _

/-- A recovery does the buffered operations, log by log. -/
theorem afterLogs_eq (h : Underway reg B w T) (names : List String) :
    afterLogs reg w.disk.wal names T =
      (names.flatMap fun file => (B file).map EngineOp.write).foldl tableStep T := by
  have hstep : ∀ T name,
      logStep reg w.disk.wal T name = ((B name).map EngineOp.write).foldl tableStep T := by
    intro T name
    have hlog : (w.disk.wal.get? name).getD [] = (walEntries (B name)).map .entry := by
      rw [h.logged name trivial, ← logOf_eq]
      split
      · next hnil =>
          rw [hnil]
          rfl
      · rfl
    rw [logStep, hlog, WAL.replayed_entries, foldl_replayStep, store_run_walEntries,
      foldl_tableStep_write]
    intro e he
    obtain ⟨op, hop, rfl⟩ := mem_dedup_walEntries he
    rw [WriteOp.collection_entry]
    exact h.registered name op hop
  rw [afterLogs, List.foldl_flatMap]
  exact List.foldl_ext _ _ _ fun T name _ => hstep T name

end Underway

/-- **Opening commits what others have open.**  After any interleaving of the steps
of any number of transactions, an engine that opens the directory answers as after
the serial run of what has completed and then of everything still buffered, log by
log.  Every transaction has lost its log: its commit raises and writes nothing, and its
rollback takes nothing back. -/
theorem opening_commits (es : List Event) (opener : Env) (henv : env.Alone) (hw : Consistent w)
    (hlogs : w.disk.wal = OrdDict.empty)
    (hreg : ∀ e ∈ es, ∀ op ∈ e.op?, op.collection ∈ w.mem.keys) (hcommit : Committable es) :
    let w' := (playAll es).exec env w
    let opened := init.exec opener ⟨OrdDict.empty, w'.disk⟩
    let ops := completed es ++
      (WAL.findWalFiles opener w'.disk).flatMap fun file =>
        (openBuffers es file).map EngineOp.write
    init.value opener ⟨OrdDict.empty, w'.disk⟩ = .ok () ∧
      (∀ file, file ∈ w'.disk.wal.keys ↔ openBuffers es file ≠ []) ∧
      SameAnswers env ((performAll ops).exec env w) opened ∧
      ∀ file, (Transaction.commit file).run env ⟨w'.mem, opened.disk⟩ =
          ⟨.error (.walReplayError
            ("Cannot read WAL " ++ env.path file ++ ": " ++ env.noSuchFile file)), w'.mem, []⟩ ∧
        (Transaction.rollback file).value env ⟨w'.mem, opened.disk⟩ = .ok () ∧
        SameAnswers env opened ((Transaction.rollback file).exec env ⟨w'.mem, opened.disk⟩) := by
  intro w' opened ops
  have hreg' : ∀ e ∈ es, ∀ op ∈ e.op?, op.collection ∈ (catalog w.mem).keys := by
    rw [keys_catalog]
    exact hreg
  have hstart : Underway (catalog w.mem) (fun _ => []) w (tables w.disk) := by
    refine ⟨hw.isOpen, fun file _ => ?_, fun _ _ hop => absurd hop List.not_mem_nil⟩
    rw [hlogs]
    rfl
  have hrun : Underway (catalog w.mem) (openBuffers es) w'
      ((completed es).foldl tableStep (tables w.disk)) := hstart.playAll henv hreg' hcommit
  have hrecovering : Recovering (catalog w.mem) (WAL.findWalFiles opener w'.disk)
      (afterLogs (catalog w.mem) w'.disk.wal (WAL.findWalFiles opener w'.disk)
        ((completed es).foldl tableStep (tables w.disk))) w'.disk :=
    ⟨w'.disk.wal, _, hrun.isOpen.holds, perm_findWalFiles opener w'.disk, hrun.allHandled, rfl⟩
  obtain ⟨hok, hopened, -⟩ := hrecovering.init opener
  have hkeys : ∀ file, file ∈ w'.disk.wal.keys ↔ openBuffers es file ≠ [] := by
    intro file
    rw [← Decidable.not_iff_not, ← OrdDict.get?_eq_none_iff, hrun.logged file trivial, not_not]
    split
    · next hnil => exact iff_of_true rfl hnil
    · next hne => exact iff_of_false (by simp) hne
  -- the serial run
  have hdone : ∀ op ∈ ops, op.collection ∈ w.mem.keys := by
    intro op hop
    rcases List.mem_append.mp hop with hop | hop
    · exact mem_completedFrom hreg (fun _ _ hop => absurd hop List.not_mem_nil) op hop
    · obtain ⟨file, -, hmem⟩ := List.mem_flatMap.mp hop
      obtain ⟨op', hop', rfl⟩ := List.mem_map.mp hmem
      rw [← keys_catalog]
      exact hrun.registered file op' hop'
  obtain ⟨-, hserial, hskeys, hstables⟩ := performAll_tableStep henv hw.serving hdone
  have htables : tables opened.disk = tables ((performAll ops).exec env w).disk := by
    rw [hstables, hopened.holds.tables, hrun.afterLogs_eq, List.foldl_append]
  have hopenedKeys : opened.mem.keys = w.mem.keys := by rw [hopened.keys, keys_catalog]
  refine ⟨hok, hkeys, ?_, fun file => ⟨?_, rfl, ?_⟩⟩
  · exact sameAnswers_of_eq henv hserial hopened.serving (hopenedKeys.trans hskeys.symm) htables
  · apply run_commit_of_missing env
    show opened.disk.wal.get? file = none
    rw [hopened.holds.wal]
    rfl
  · -- the documents are those of the opened engine
    have hwkeys : w'.mem.keys = opened.mem.keys := hrun.isOpen.keys.trans hopened.keys.symm
    have hserving : Serving ⟨w'.mem, opened.disk.write (.unlinkWal file)⟩ := fun c hc =>
      hopened.serving c (hwkeys ▸ hc)
    exact sameAnswers_of_eq henv hopened.serving hserving hwkeys rfl

/-- A second client opens while a transaction is open. -/
theorem opening_commits_users :
    let es : List Event :=
      [.begin, .engine (.write (.insert "users" "2" OrdDict.empty)),
        .buffer "a.wal" (.delete "users" "2")]
    let w' := (playAll es).exec onlyClient usersDb
    let opened := init.exec onlyClient ⟨OrdDict.empty, w'.disk⟩
    SameAnswers onlyClient ((performAll [.write (.insert "users" "2" OrdDict.empty),
        .write (.delete "users" "2")]).exec onlyClient usersDb) opened ∧
      (Transaction.commit "a.wal").value onlyClient ⟨w'.mem, opened.disk⟩ ≠ .ok () := by
  intro es w' opened
  obtain ⟨-, -, hsame, hlost⟩ := opening_commits es onlyClient onlyClient_alone usersDb_consistent
    rfl (by decide) (by decide)
  refine ⟨hsame, fun hok => ?_⟩
  rw [Prog.value, (hlost "a.wal").1] at hok
  cases hok

end JsonpySql
