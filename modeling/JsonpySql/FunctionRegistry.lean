/-
JsonpySql/FunctionRegistry.lean

The registry of functions and procedures, and its file `functions.pkl`.

A registration first enters the callable in memory and then dumps both tables
to the file.  A dump is of whole tables, so it raises if any callable in them
cannot be serialised; the entry that made it raise stays in memory, and every
later dump meets it again.  So memory and file agree just as long as every
callable is serialisable (`registrations_kept_iff`).
-/
import JsonpySql.CrashProg
import JsonpySql.OrdDict
import JsonpySql.PyStr

namespace JsonpySql

/-! ### Callables and dumps -/

inductive FunctionKind
  | function | procedure
deriving DecidableEq

/-- The kind in messages. -/
def FunctionKind.word : FunctionKind → String
  | .function => "function"
  | .procedure => "procedure"

/-- The mapping that is dumped: a table of callables under the name of each
kind. -/
abbrev RegistryData (F : Type) := OrdDict String (OrdDict String F)

/-- What is used of `dill`: the bytes a dump writes and how it ends, and what
bytes load as; an exception is its message. -/
structure Dill (F B : Type) where
  dump : RegistryData F → B × Except String Unit
  load : B → Except String (RegistryData F)

/-- What is relied on: a dump succeeds just if every callable can be serialised,
and its bytes load as what was dumped. -/
structure Dill.Lawful {F B : Type} (dill : Dill F B) (Serialisable : F → Prop) : Prop where
  dump_ok : ∀ data, (dill.dump data).2 = .ok () ↔
    ∀ table ∈ data.values, ∀ fn ∈ table.values, Serialisable fn
  load_dump : ∀ data, (dill.dump data).2 = .ok () → dill.load (dill.dump data).1 = .ok data

/-! ### The files -/

/-- `functions.pkl` and the temporary file beside it. -/
structure PklDir (B : Type) where
  pkl : Option B
  tmp : Option B

inductive PklWrite (B : Type)
  | writeTmp (bytes : B)
  | replaceTmp
  | unlinkTmp

def PklDir.write {B : Type} (d : PklDir B) : PklWrite B → PklDir B
  | .writeTmp bytes => { d with tmp := some bytes }
  | .replaceTmp => { pkl := d.tmp, tmp := none }
  | .unlinkTmp => { d with tmp := none }

instance {B : Type} : Storage (PklDir B) (PklWrite B) := ⟨PklDir.write⟩

/-! ### The registry -/

structure FunctionRegistry (F : Type) where
  functions : OrdDict String F
  procedures : OrdDict String F

inductive RegistryErr
  | functionError (msg : String)
  -- what `dill` raises
  | dillError (msg : String)
deriving DecidableEq

/-- `str(exc)`. -/
def RegistryErr.str : RegistryErr → String
  | .functionError msg | .dillError msg => msg

/-- Programs of the registry; the environment is the database path. -/
abbrev FunctionM (F B : Type) :=
  Prog String RegistryErr (FunctionRegistry F) (PklDir B) (PklWrite B)

namespace FunctionRegistry

variable {F B : Type}

def new : FunctionRegistry F := ⟨OrdDict.empty, OrdDict.empty⟩

def table (self : FunctionRegistry F) : FunctionKind → OrdDict String F
  | .function => self.functions
  | .procedure => self.procedures

def set (self : FunctionRegistry F) (kind : FunctionKind) (name : String) (fn : F) :
    FunctionRegistry F :=
  match kind with
  | .function => { self with functions := self.functions.set name fn }
  | .procedure => { self with procedures := self.procedures.set name fn }

def data (self : FunctionRegistry F) : RegistryData F :=
  OrdDict.ofList [("functions", self.functions), ("procedures", self.procedures)]

def pklPath (dbPath : String) : String := dbPath ++ "/functions.pkl"

/-! ### Operations -/

/-- Dump both tables to the temporary file and move it into place. -/
def save (dill : Dill F B) : FunctionM F B Unit := do
  let dbPath ← Prog.env
  let self ← Prog.getMem
  Prog.tryCatch
    (do
      Prog.writeAll [.writeTmp (dill.dump self.data).1]
      match (dill.dump self.data).2 with
      | .error msg => Prog.raise (.dillError msg)
      | .ok () => Prog.writeAll [.replaceTmp])
    fun exc => do
      Prog.writeAll [.unlinkTmp]
      Prog.raise (.functionError
        ("Cannot save function registry to " ++ pklPath dbPath ++ ": " ++ exc.str))

/-- Read both tables from the file, if there is one. -/
def load (dill : Dill F B) : FunctionM F B Unit := do
  let dbPath ← Prog.env
  let disk ← Prog.getDisk
  match disk.pkl with
  | none => pure ()
  | some bytes =>
      match dill.load bytes with
      | .error msg =>
          Prog.raise (.functionError
            ("Cannot load function registry from " ++ pklPath dbPath ++ ": " ++ msg))
      | .ok data => Prog.modifyMem fun _ : FunctionRegistry F =>
          ⟨(data.get? "functions").getD OrdDict.empty,
            (data.get? "procedures").getD OrdDict.empty⟩

/-- Enter a callable under its `__name__`, and persist the registry. -/
def register (dill : Dill F B) (name : F → String) (kind : FunctionKind) (fn : F) :
    FunctionM F B F := do
  Prog.modifyMem fun self : FunctionRegistry F => self.set kind (name fn) fn
  save dill
  return fn

def registerFunction (dill : Dill F B) (name : F → String) (fn : F) : FunctionM F B F :=
  register dill name .function fn

def registerProcedure (dill : Dill F B) (name : F → String) (fn : F) : FunctionM F B F :=
  register dill name .procedure fn

/-- The callable of a kind and name. -/
def getRegistered (kind : FunctionKind) (key : String) : FunctionM F B F := do
  let self ← Prog.getMem
  match (self.table kind).get? key with
  | none =>
      Prog.raise (.functionError ("No " ++ kind.word ++ " registered with name " ++ strRepr key))
  | some fn => pure fn

def getFunction (key : String) : FunctionM F B F := getRegistered .function key

def getProcedure (key : String) : FunctionM F B F := getRegistered .procedure key

end FunctionRegistry

/-- A call of `register_function` or `register_procedure`. -/
structure Registration (F : Type) where
  kind : FunctionKind
  fn : F

def Registration.perform {F B : Type} (dill : Dill F B) (name : F → String)
    (call : Registration F) : FunctionM F B F :=
  match call.kind with
  | .function => FunctionRegistry.registerFunction dill name call.fn
  | .procedure => FunctionRegistry.registerProcedure dill name call.fn

/-! ### What is registered -/

/-- The callable of every kind and name. -/
abbrev Registrations (F : Type) := FunctionKind → String → Option F

/-- One more registration; it replaces an earlier one of its kind and name. -/
def Registrations.put {F : Type} (regs : Registrations F) (kind : FunctionKind) (key : String)
    (fn : F) : Registrations F := fun kind' key' =>
  if kind' = kind ∧ key' = key then some fn else regs kind' key'

namespace FunctionRegistry

variable {F B : Type} {dill : Dill F B} {name : F → String} {Serialisable : F → Prop}
  {dbPath : String} {w : World (FunctionRegistry F) (PklDir B)} {regs : Registrations F}

/-- What the tables of a registry register. -/
def registrations (self : FunctionRegistry F) : Registrations F := fun kind key =>
  (self.table kind).get? key

theorem registrations_set (self : FunctionRegistry F) (kind : FunctionKind) (key : String)
    (fn : F) : (self.set kind key fn).registrations = self.registrations.put kind key fn := by
  funext kind' key'
  cases kind <;> cases kind' <;>
    simp [registrations, Registrations.put, set, table, OrdDict.get?_set]

/-- The registry answers what is registered. -/
def Answers (dbPath : String) (w : World (FunctionRegistry F) (PklDir B))
    (regs : Registrations F) : Prop :=
  ∀ kind key fn, (getRegistered kind key : FunctionM F B F).value dbPath w = .ok fn ↔
    regs kind key = some fn

/-- So do the registry and a new one that loads the file. -/
structure InStep (dill : Dill F B) (dbPath : String) (w : World (FunctionRegistry F) (PklDir B))
    (regs : Registrations F) : Prop where
  memory : Answers dbPath w regs
  loads : (load dill).value dbPath ⟨new, w.disk⟩ = .ok ()
  file : Answers dbPath ((load dill).exec dbPath ⟨new, w.disk⟩) regs

theorem answers_iff : Answers dbPath w regs ↔ w.mem.registrations = regs := by
  have hvalue : ∀ kind key fn, (getRegistered kind key : FunctionM F B F).value dbPath w = .ok fn ↔
      w.mem.registrations kind key = some fn := by
    intro kind key fn
    rw [getRegistered, Prog.value, Prog.run_bind_read (Prog.run_getMem dbPath w), registrations]
    rcases (w.mem.table kind).get? key with _ | fn' <;> simp
  simp only [Answers, hvalue]
  constructor
  · intro h
    funext kind key
    exact Option.ext fun fn => h kind key fn
  · rintro rfl kind key fn
    rfl

/-! ### Runs -/

/-- What is registered after a call: its callable too, if it returned. -/
def recorded (name : F → String) (call : Registration F) (result : Except RegistryErr F)
    (regs : Registrations F) : Registrations F :=
  match result with
  | .ok _ => regs.put call.kind (name call.fn) call.fn
  | .error _ => regs

/-- In every state of a run of calls memory and file agree on what the calls that
returned have registered, and every call with a serialisable callable returns. -/
def KeepsUp (dill : Dill F B) (name : F → String) (Serialisable : F → Prop) (dbPath : String) :
    World (FunctionRegistry F) (PklDir B) → Registrations F → List (Registration F) → Prop
  | w, regs, [] => InStep dill dbPath w regs
  | w, regs, call :: calls =>
      let result := (call.perform dill name).value dbPath w
      InStep dill dbPath w regs ∧ (Serialisable call.fn → result = .ok call.fn) ∧
        KeepsUp dill name Serialisable dbPath ((call.perform dill name).exec dbPath w)
          (recorded name call result regs) calls

/-! ### One call -/

theorem perform_eq (call : Registration F) :
    call.perform dill name = register dill name call.kind call.fn := by
  rcases call with ⟨_ | _, fn⟩ <;> rfl

/-- A registration saves the registry with the callable entered. -/
theorem run_perform (dill : Dill F B) (name : F → String) (dbPath : String)
    (w : World (FunctionRegistry F) (PklDir B)) (call : Registration F) :
    (call.perform dill name).run dbPath w = (save dill >>= fun _ => pure call.fn).run dbPath
      ⟨w.mem.set call.kind (name call.fn) call.fn, w.disk⟩ := by
  rw [perform_eq]
  rfl

theorem run_save_ok (dbPath : String) (h : (dill.dump w.mem.data).2 = .ok ()) :
    (save dill).run dbPath w =
      ⟨.ok (), w.mem, [.writeTmp (dill.dump w.mem.data).1, .replaceTmp]⟩ := by
  simp [save, Prog.run_bind, Prog.run_tryCatch, Prog.exec, Outcome.after, h]

theorem run_save_error (dbPath : String) {msg : String}
    (h : (dill.dump w.mem.data).2 = .error msg) :
    (save dill).run dbPath w = ⟨.error (.functionError
      ("Cannot save function registry to " ++ pklPath dbPath ++ ": " ++ msg)), w.mem,
      [.writeTmp (dill.dump w.mem.data).1, .unlinkTmp]⟩ := by
  simp [save, Prog.run_bind, Prog.run_tryCatch, Prog.exec, Outcome.after, h, RegistryErr.str]

/-- Every registered callable is a value of one of the dumped tables. -/
theorem dump_data_ok (hdill : dill.Lawful Serialisable) (self : FunctionRegistry F) :
    (dill.dump self.data).2 = .ok () ↔
      ∀ kind key fn, self.registrations kind key = some fn → Serialisable fn := by
  have hvalues : ∀ (t : OrdDict String F), (∀ fn ∈ t.values, Serialisable fn) ↔
      ∀ key fn, t.get? key = some fn → Serialisable fn := by
    intro t
    simp only [OrdDict.values, List.forall_mem_map, Prod.forall, OrdDict.mem_entries_iff]
  have htables : self.data.values = [self.functions, self.procedures] := rfl
  rw [hdill.dump_ok, htables]
  simp only [List.forall_mem_cons, List.not_mem_nil, false_imp_iff, implies_true, and_true, hvalues]
  constructor
  · rintro ⟨hfunctions, hprocedures⟩ (_ | _)
    · exact hfunctions
    · exact hprocedures
  · exact fun h => ⟨h .function, h .procedure⟩

/-- The file is the dump of the registry; without a file the registry is new. -/
def Saved (dill : Dill F B) (w : World (FunctionRegistry F) (PklDir B)) : Prop :=
  match w.disk.pkl with
  | none => w.mem = new
  | some bytes => dill.dump w.mem.data = (bytes, .ok ())

theorem run_load_of_none (h : w.disk.pkl = none) :
    (load dill).run dbPath w = ⟨.ok (), w.mem, []⟩ := by
  simp [load, Prog.run_bind, Prog.exec, Outcome.after, h]

/-- Loading a dump gives the registry that was dumped. -/
theorem run_load_of_dump (hdill : dill.Lawful Serialisable) {self : FunctionRegistry F} {bytes : B}
    (hdump : dill.dump self.data = (bytes, .ok ())) (h : w.disk.pkl = some bytes) :
    (load dill).run dbPath w = ⟨.ok (), self, []⟩ := by
  have hload : dill.load bytes = .ok self.data := by
    have hload := hdill.load_dump self.data (by rw [hdump])
    rwa [hdump] at hload
  have hself : (⟨(self.data.get? "functions").getD OrdDict.empty,
      (self.data.get? "procedures").getD OrdDict.empty⟩ : FunctionRegistry F) = self := rfl
  simp [load, Prog.run_bind, Prog.exec, Outcome.after, h, hload, hself]

/-- A saved registry and its file agree. -/
theorem Saved.inStep (hdill : dill.Lawful Serialisable) (h : Saved dill w) :
    InStep dill dbPath w w.mem.registrations := by
  have hrun : (load dill).run dbPath ⟨new, w.disk⟩ = ⟨.ok (), w.mem, []⟩ := by
    rcases hpkl : w.disk.pkl with _ | bytes
    · rw [Saved, hpkl] at h
      rw [h]
      exact run_load_of_none hpkl
    · rw [Saved, hpkl] at h
      exact run_load_of_dump hdill h hpkl
  refine ⟨answers_iff.mpr rfl, congrArg Outcome.result hrun, answers_iff.mpr ?_⟩
  rw [Prog.exec, hrun]

/-- And all it registers can be serialised. -/
theorem Saved.serialisable (hdill : dill.Lawful Serialisable) (h : Saved dill w)
    {kind : FunctionKind} {key : String} {fn : F} (hfn : w.mem.registrations kind key = some fn) :
    Serialisable fn := by
  rcases hpkl : w.disk.pkl with _ | bytes
  · rw [Saved, hpkl] at h
    rw [h] at hfn
    cases kind <;> cases hfn
  · rw [Saved, hpkl] at h
    exact (dump_data_ok hdill w.mem).mp (by rw [h]) kind key fn hfn

/-- A registration whose callable can be serialised returns, and has saved what it
entered. -/
theorem Saved.perform (name : F → String) (dbPath : String) (hdill : dill.Lawful Serialisable)
    (h : Saved dill w) {call : Registration F} (hfn : Serialisable call.fn) :
    let w' := (call.perform dill name).exec dbPath w
    (call.perform dill name).value dbPath w = .ok call.fn ∧ Saved dill w' ∧
      w'.mem.registrations = w.mem.registrations.put call.kind (name call.fn) call.fn := by
  have hset := registrations_set w.mem call.kind (name call.fn) call.fn
  set self := w.mem.set call.kind (name call.fn) call.fn with hself
  have hdump : (dill.dump self.data).2 = .ok () := by
    refine (dump_data_ok hdill self).mpr fun kind key fn hreg => ?_
    rw [hset, Registrations.put] at hreg
    split at hreg
    · exact Option.some.inj hreg ▸ hfn
    · exact h.serialisable hdill hreg
  have hsave := run_save_ok (w := ⟨self, w.disk⟩) dbPath hdump
  have hrun : (call.perform dill name).run dbPath w =
      ⟨.ok call.fn, self, [.writeTmp (dill.dump self.data).1, .replaceTmp]⟩ := by
    rw [run_perform, Prog.run_bind_ok hsave]
    rfl
  rw [Prog.value, Prog.exec, hrun]
  exact ⟨rfl, Prod.ext rfl hdump, hset⟩

/-- One whose callable cannot be serialised raises, and what it entered stays. -/
theorem perform_error (name : F → String) (dbPath : String)
    (w : World (FunctionRegistry F) (PklDir B)) (hdill : dill.Lawful Serialisable)
    {call : Registration F} (hfn : ¬Serialisable call.fn) :
    let w' := (call.perform dill name).exec dbPath w
    (∃ e, (call.perform dill name).value dbPath w = .error e) ∧
      w'.mem.registrations = w.mem.registrations.put call.kind (name call.fn) call.fn := by
  have hset := registrations_set w.mem call.kind (name call.fn) call.fn
  set self := w.mem.set call.kind (name call.fn) call.fn with hself
  have hdump : ∃ msg, (dill.dump self.data).2 = .error msg := by
    rcases hend : (dill.dump self.data).2 with msg | _
    · exact ⟨msg, rfl⟩
    · refine absurd ((dump_data_ok hdill self).mp hend call.kind (name call.fn) call.fn ?_) hfn
      rw [hset, Registrations.put, if_pos ⟨rfl, rfl⟩]
  obtain ⟨msg, hdump⟩ := hdump
  have hsave := run_save_error (w := ⟨self, w.disk⟩) dbPath hdump
  have hrun : (call.perform dill name).run dbPath w = ⟨.error (.functionError
      ("Cannot save function registry to " ++ pklPath dbPath ++ ": " ++ msg)), self,
      [.writeTmp (dill.dump self.data).1, .unlinkTmp]⟩ := by
    rw [run_perform, Prog.run_bind_error hsave]
  rw [Prog.value, Prog.exec, hrun]
  exact ⟨⟨_, rfl⟩, hset⟩

theorem KeepsUp.here {calls : List (Registration F)}
    (h : KeepsUp dill name Serialisable dbPath w regs calls) : InStep dill dbPath w regs := by
  cases calls with
  | nil => exact h
  | cons call calls => exact h.1

/-- From a saved registry the calls keep up just if their callables can be
serialised. -/
theorem Saved.keepsUp_iff (hdill : dill.Lawful Serialisable) (h : Saved dill w)
    (calls : List (Registration F)) :
    KeepsUp dill name Serialisable dbPath w w.mem.registrations calls ↔
      ∀ call ∈ calls, Serialisable call.fn := by
  induction calls generalizing w with
  | nil => exact iff_of_true (h.inStep hdill) nofun
  | cons call calls ih =>
      rw [List.forall_mem_cons, KeepsUp]
      by_cases hfn : Serialisable call.fn
      · obtain ⟨hvalue, hsaved, hregs⟩ := h.perform name dbPath hdill hfn
        rw [hvalue, recorded, ← hregs, ih hsaved]
        exact ⟨fun hall => ⟨hfn, hall.2.2⟩, fun hall =>
          ⟨h.inStep hdill, fun _ => rfl, hall.2⟩⟩
      -- the registry has the callable now, and the calls that returned do not say so
      · obtain ⟨⟨e, hvalue⟩, hregs⟩ := perform_error name dbPath w hdill hfn
        refine iff_of_false (fun hkeeps => ?_) fun hall => hfn hall.1
        rw [hvalue, recorded] at hkeeps
        have hmem := answers_iff.mp hkeeps.2.2.here.memory
        have hnew : w.mem.registrations call.kind (name call.fn) = some call.fn := by
          rw [← hmem, hregs, Registrations.put, if_pos ⟨rfl, rfl⟩]
        exact hfn (h.serialisable hdill hnew)

/-- A registry that was opened agrees with its file. -/
theorem saved_of_load (hdill : dill.Lawful Serialisable) {disk : PklDir B}
    (hdisk : ∀ bytes, disk.pkl = some bytes →
      ∃ self : FunctionRegistry F, dill.dump self.data = (bytes, .ok ())) :
    Saved dill ((load dill).exec dbPath ⟨new, disk⟩) := by
  rcases hpkl : disk.pkl with _ | bytes
  · have hexec : (load dill).exec dbPath ⟨new, disk⟩ = ⟨new, disk⟩ :=
      Prog.exec_of_run (run_load_of_none hpkl)
    rw [hexec, Saved, hpkl]
  · obtain ⟨self, hdump⟩ := hdisk bytes hpkl
    have hexec : (load dill).exec dbPath ⟨new, disk⟩ = ⟨self, disk⟩ :=
      Prog.exec_of_run (run_load_of_dump hdill hdump hpkl)
    rw [hexec, Saved, hpkl]
    exact hdump

/-- **When the registrations are kept.**  Open the registry of a directory without
the file, or with one that was dumped before.  In every state of a run of calls
memory and file agree on what was registered at first and by the calls that
returned, and every call with a serialisable callable returns, just if every
callable of the run is serialisable. -/
theorem registrations_kept_iff (hdill : dill.Lawful Serialisable) (disk : PklDir B)
    (hdisk : ∀ bytes, disk.pkl = some bytes →
      ∃ self : FunctionRegistry F, dill.dump self.data = (bytes, .ok ()))
    (calls : List (Registration F)) :
    let w₀ := (load dill).exec dbPath ⟨new, disk⟩
    KeepsUp dill name Serialisable dbPath w₀ w₀.mem.registrations calls ↔
      ∀ call ∈ calls, Serialisable call.fn := by
  intro w₀
  have hsaved : Saved dill w₀ := saved_of_load hdill hdisk
  exact hsaved.keepsUp_iff hdill calls

/-- A callable by its name, and whether it closes over something like an open
generator. -/
structure SampleFn where
  name : String
  overGenerator : Bool
deriving DecidableEq

/-- A `dill` whose bytes are the tables, and empty after a failure. -/
def sampleDill : Dill SampleFn (Option (RegistryData SampleFn)) where
  dump data :=
    if ∀ table ∈ data.values, ∀ fn ∈ table.values, fn.overGenerator = false then
      (some data, .ok ())
    else (none, .error "cannot pickle 'generator' object")
  load
    | some data => .ok data
    | none => .error "Ran out of input"

theorem sampleDill_lawful : sampleDill.Lawful fun fn => fn.overGenerator = false where
  dump_ok data := by
    simp only [sampleDill]
    split_ifs with hall
    · exact iff_of_true rfl hall
    · exact iff_of_false nofun hall
  load_dump data := by
    simp only [sampleDill]
    split_ifs with hall
    · exact fun _ => rfl
    · exact nofun

/-- A function and a procedure of one name, in a directory without the file. -/
theorem registrations_kept_double :
    let disk : PklDir (Option (RegistryData SampleFn)) := ⟨none, none⟩
    let w₀ := (load sampleDill).exec "/db" ⟨new, disk⟩
    KeepsUp sampleDill SampleFn.name (fun fn => fn.overGenerator = false) "/db" w₀
      w₀.mem.registrations
      [⟨.function, ⟨"double", false⟩⟩, ⟨.procedure, ⟨"double", false⟩⟩] := by
  intro disk w₀
  refine (registrations_kept_iff sampleDill_lawful disk (by nofun) _).mpr ?_
  simp

/-- A registration that raises leaves its callable in memory but not in the file,
and the next one raises too, though its own callable can be serialised. -/
theorem failed_registration_kept :
    let ticks : SampleFn := ⟨"ticks", true⟩
    let double : SampleFn := ⟨"double", false⟩
    let w₀ : World (FunctionRegistry SampleFn) (PklDir (Option (RegistryData SampleFn))) :=
      (load sampleDill).exec "/db" ⟨new, ⟨none, none⟩⟩
    let msg := "Cannot save function registry to /db/functions.pkl: " ++
      "cannot pickle 'generator' object"
    let first := registerFunction sampleDill SampleFn.name ticks
    let second := registerFunction sampleDill SampleFn.name double
    let w₁ := first.exec "/db" w₀
    first.value "/db" w₀ = .error (.functionError msg) ∧
      (getFunction "ticks").value "/db" w₁ = .ok ticks ∧ w₁.disk.pkl = none ∧
      second.value "/db" w₁ = .error (.functionError msg) ∧
      ¬KeepsUp sampleDill SampleFn.name (fun fn => fn.overGenerator = false) "/db" w₀
        w₀.mem.registrations [⟨.function, ticks⟩, ⟨.function, double⟩] := by
  intro ticks double w₀ msg first second w₁
  have hsecond : second.value "/db" w₁ = .error (.functionError msg) := by decide
  refine ⟨by decide, by decide, rfl, hsecond, ?_⟩
  rintro ⟨-, -, -, hreturns, -⟩
  exact nomatch hsecond.symm.trans (hreturns rfl)

end FunctionRegistry

end JsonpySql
