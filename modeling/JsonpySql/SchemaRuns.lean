/-
JsonpySql/SchemaRuns.lean

Runs of calls on schema collections, with compactions between them.

Every step of a run does one of four things (`StepEffect`): nothing, a raise
that has edited the reverse index at most, an admitted write, or a compaction.
What all of them keep holds in every state of a run (`Throughout.of_eachStep`).
-/
import JsonpySql.SchemaCalls

namespace JsonpySql

open StorageEngine

/-! ### Runs -/

/-- A step of a run: a call on a collection, or a compaction by the engine. -/
inductive SchemaStep
  | call (self : SchemaCollection) (request : SchemaCall)
  | compact (collection : String)

/-- The database after a step; where the step raises, the run goes on from what
it has left. -/
def SchemaStep.exec (env : Env) (w : Database) : SchemaStep → Database
  | .call self request => (request.perform self).exec env w
  | .compact collection => (StorageEngine.compact collection).exec env w

/-- `I` holds in every state of a run.  Every step has surroundings of its
own. -/
def Throughout (I : Database → Prop) : Database → List (Env × SchemaStep) → Prop
  | w, [] => I w
  | w, (env, step) :: steps => I w ∧ Throughout I (step.exec env w) steps

/-- `Q` holds of every step of a run and the state it starts from. -/
def EachStep (Q : Database → Env → SchemaStep → Prop) :
    Database → List (Env × SchemaStep) → Prop
  | _, [] => True
  | w, (env, step) :: steps => Q w env step ∧ EachStep Q (step.exec env w) steps

/-- **Runs.**  What every step keeps that satisfies `Q` holds throughout a run
whose steps do. -/
theorem Throughout.of_eachStep {I : Database → Prop} {Q : Database → Env → SchemaStep → Prop}
    {w : Database} {steps : List (Env × SchemaStep)} (h0 : I w) (hsteps : EachStep Q w steps)
    (hstep : ∀ s ∈ steps, ∀ w, I w → Q w s.1 s.2 → I (s.2.exec s.1 w)) :
    Throughout I w steps := by
  induction steps generalizing w with
  | nil => exact h0
  | cons s steps ih =>
      obtain ⟨hs, hrest⟩ := hsteps
      refine ⟨h0, ih (hstep s List.mem_cons_self w h0 hs) hrest ?_⟩
      exact fun s' hs' => hstep s' (List.mem_cons_of_mem _ hs')

theorem eachStep_true (w : Database) (steps : List (Env × SchemaStep)) :
    EachStep (fun _ _ _ => True) w steps := by
  induction steps generalizing w with
  | nil => trivial
  | cons s steps ih => exact ⟨trivial, ih _⟩

theorem Throughout.of_invariant {I : Database → Prop} {w : Database}
    {steps : List (Env × SchemaStep)} (h0 : I w)
    (hstep : ∀ s ∈ steps, ∀ w, I w → I (s.2.exec s.1 w)) : Throughout I w steps :=
  Throughout.of_eachStep h0 (eachStep_true w steps) fun s hs w hI _ => hstep s hs w hI

theorem Throughout.mono {I J : Database → Prop} (hIJ : ∀ w, I w → J w) {w : Database}
    {steps : List (Env × SchemaStep)} (h : Throughout I w steps) : Throughout J w steps := by
  induction steps generalizing w with
  | nil => exact hIJ w h
  | cons s steps ih => exact ⟨hIJ w h.1, ih h.2⟩

theorem Throughout.here {I : Database → Prop} {w : Database} {steps : List (Env × SchemaStep)}
    (h : Throughout I w steps) : I w := by
  cases steps with
  | nil => exact h
  | cons s steps => exact h.1

/-- Where each step keeps `I` just if it satisfies `Q`, a run does just if its
steps do.  What holds in every state, `J`, may be used for it. -/
theorem Throughout.iff_eachStep {I J : Database → Prop} {Q : Database → Env → SchemaStep → Prop}
    {w : Database} {steps : List (Env × SchemaStep)} (h : I w) (hJ : J w)
    (hkeep : ∀ s ∈ steps, ∀ w, J w → J (s.2.exec s.1 w))
    (hstep : ∀ s ∈ steps, ∀ w, J w → I w → (I (s.2.exec s.1 w) ↔ Q w s.1 s.2)) :
    Throughout I w steps ↔ EachStep Q w steps := by
  induction steps generalizing w with
  | nil => exact iff_of_true h trivial
  | cons s steps ih =>
      have hiff := hstep s List.mem_cons_self w hJ h
      have hrest : I (s.2.exec s.1 w) →
          (Throughout I (s.2.exec s.1 w) steps ↔ EachStep Q (s.2.exec s.1 w) steps) := fun h' =>
        ih h' (hkeep s List.mem_cons_self w hJ)
          (fun s' hs' => hkeep s' (List.mem_cons_of_mem _ hs'))
          fun s' hs' => hstep s' (List.mem_cons_of_mem _ hs')
      constructor
      · rintro ⟨-, hall⟩
        exact ⟨hiff.mp hall.here, (hrest hall.here).mp hall⟩
      · rintro ⟨hQ, hall⟩
        exact ⟨h, (hrest (hiff.mpr hQ)).mpr hall⟩

/-- Where `I` holds throughout, a property of steps may use it. -/
theorem EachStep.imp {I : Database → Prop} {Q R : Database → Env → SchemaStep → Prop}
    {w : Database} {steps : List (Env × SchemaStep)} (hI : Throughout I w steps)
    (h : EachStep Q w steps) (hQR : ∀ s ∈ steps, ∀ w, I w → Q w s.1 s.2 → R w s.1 s.2) :
    EachStep R w steps := by
  induction steps generalizing w with
  | nil => trivial
  | cons s steps ih =>
      refine ⟨hQR s List.mem_cons_self w hI.1 h.1, ih hI.2 h.2 ?_⟩
      exact fun s' hs' => hQR s' (List.mem_cons_of_mem _ hs')

/-- What a step does. -/
inductive StepEffect (env : Env) (w : Database) : SchemaStep → Database → Prop
  | nothing (step : SchemaStep) : StepEffect env w step w
  | raised {self : SchemaCollection} {request : SchemaCall} {im im' : IndexManager} {w' : Database}
      (him : w.mem.get? self.name = some im) (hrev : ReverseOnly im im')
      (hchanged : Changed w w' self.name (tables w.disk self.name) im') :
      StepEffect env w (.call self request) w'
  | wrote {self : SchemaCollection} {request : SchemaCall} {op : WriteOp} {im im' : IndexManager}
      {w' : Database} (him : w.mem.get? self.name = some im)
      (hadmits : self.Admits env w request op)
      (hrev : ReverseOnly (op.newIndexes (tables w.disk self.name) im) im')
      (hchanged : Changed w w' self.name ((tables w.disk self.name).set op.docId op.line.slot)
        im') :
      StepEffect env w (.call self request) w'
  | compacted {c : String} {im : IndexManager} {w' : Database} (him : w.mem.get? c = some im)
      (hchanged : Changed w w' c (tables w.disk c).live
        (im.rebuild (DocumentStore.rows (tables w.disk c)))) :
      StepEffect env w (.compact c) w'

section Steps

variable {env : Env} {w w' : Database} {step : SchemaStep}

theorem stepEffect_exec (env : Env) (hw : Serving w)
    (hreg : ∀ self request, step = .call self request → self.name ∈ w.mem.keys) :
    StepEffect env w step (step.exec env w) := by
  cases step with
  | call self request =>
      obtain ⟨im, him⟩ := OrdDict.exists_get?_of_mem (hreg self request rfl)
      obtain ⟨e, im', -, hrev, hchanged⟩ | ⟨op, im', hadmits, -, hrev, hchanged⟩ :=
        self.perform_settled env hw him request
      · exact .raised him hrev hchanged
      · exact .wrote him hadmits hrev hchanged
  | compact c =>
      rcases him : w.mem.get? c with _ | im
      · have hrun : (StorageEngine.compact c).run env w =
            ⟨.error (.storageError ("Unknown collection: " ++ strRepr c)), w.mem, []⟩ :=
          Prog.run_bind_error (run_require_of_notMem (OrdDict.get?_eq_none_iff.mp him))
        rw [SchemaStep.exec, Prog.exec, hrun]
        exact .nothing _
      · obtain hrun | ⟨-, hchanged⟩ := perform_cases (.compact c) env hw him
        · have hrun' : (StorageEngine.compact c).run env w = _ := hrun
          rw [SchemaStep.exec, Prog.exec, hrun']
          exact .nothing _
        · exact .compacted him hchanged

/-- A step keeps the collections and their files. -/
theorem StepEffect.serving (h : StepEffect env w step w') (hw : Serving w) :
    Serving w' ∧ w'.mem.keys = w.mem.keys := by
  have hkeep : ∀ c im t' im', w.mem.get? c = some im → Changed w w' c t' im' →
      Serving w' ∧ w'.mem.keys = w.mem.keys := by
    intro c im t' im' him hchanged
    have hc : c ∈ w.mem.keys := OrdDict.mem_keys_of_get? him
    exact ⟨hchanged.serving hc hw, hchanged.keys hc⟩
  cases h with
  | nothing => exact ⟨hw, rfl⟩
  | raised him _ hchanged => exact hkeep _ _ _ _ him hchanged
  | wrote him _ _ hchanged => exact hkeep _ _ _ _ him hchanged
  | compacted him hchanged => exact hkeep _ _ _ _ him hchanged

/-- A step of a run on registered collections. -/
theorem serving_step {names : List String} (hw : Serving w ∧ w.mem.keys = names)
    (hreg : ∀ self request, step = .call self request → self.name ∈ names) :
    StepEffect env w step (step.exec env w) ∧
      Serving (step.exec env w) ∧ (step.exec env w).mem.keys = names := by
  obtain ⟨hw, rfl⟩ := hw
  have heffect : StepEffect env w step (step.exec env w) := stepEffect_exec env hw hreg
  exact ⟨heffect, heffect.serving hw⟩

/-- A run on registered collections keeps them and their files. -/
theorem throughout_serving {steps : List (Env × SchemaStep)} (hw : Serving w)
    (hreg : ∀ s ∈ steps, ∀ self request, s.2 = .call self request → self.name ∈ w.mem.keys) :
    Throughout (fun w' => Serving w' ∧ w'.mem.keys = w.mem.keys) w steps :=
  Throughout.of_invariant ⟨hw, rfl⟩ fun s hs _ h => (serving_step h (hreg s hs)).2

end Steps

end JsonpySql
