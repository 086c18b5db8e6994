/-
JsonpySql/CrashProg.lean

Programs that keep volatile memory, write a persistent store in atomic steps,
and may raise.  A program is run in an environment it only reads (`ρ`), on a
world of memory (`σ`) and disk (`δ`); what comes back is its result or
exception, the memory it leaves, and the list of writes (`ω`) it made, oldest
first.  The disk it leaves is the old disk with these writes applied, so every
point at which the process may stop is a prefix of the list:

    crashAt p r w k  =  the disk after the first `k` writes of `p`.

An exception keeps the memory and the writes made before it: nothing is rolled
back.  `crashAt_bind` splits a crash point of a composite program into one of
its first or of its second part.
-/
import Mathlib.Data.List.Basic

/-- A persistent store and its atomic writes. -/
class Storage (δ : Type*) (ω : outParam (Type*)) where
  apply : δ → ω → δ

/-- Perform writes on a store, left to right. -/
def applyAll {δ ω : Type*} [Storage δ ω] (d : δ) (ws : List ω) : δ := ws.foldl Storage.apply d

section ApplyAll

variable {δ ω : Type*} [Storage δ ω]

@[simp] theorem applyAll_nil (d : δ) : applyAll d ([] : List ω) = d := rfl

@[simp] theorem applyAll_cons (d : δ) (w : ω) (ws : List ω) :
    applyAll d (w :: ws) = applyAll (Storage.apply d w) ws := rfl

theorem applyAll_append (d : δ) (ws ws' : List ω) :
    applyAll d (ws ++ ws') = applyAll (applyAll d ws) ws' := by
  simp [applyAll]

/-- What every write of a list keeps, the whole list keeps. -/
theorem applyAll_induction {P : δ → Prop} {ws : List ω} {d : δ} (h0 : P d)
    (hstep : ∀ w ∈ ws, ∀ d, P d → P (Storage.apply d w)) : P (applyAll d ws) := by
  induction ws generalizing d with
  | nil => exact h0
  | cons w ws ih =>
      exact ih (hstep w List.mem_cons_self d h0)
        fun w' hw' => hstep w' (List.mem_cons_of_mem _ hw')

end ApplyAll

/-- Volatile memory and persistent disk. -/
structure World (σ δ : Type*) where
  mem : σ
  disk : δ

/-- How a run ended: result or exception, memory, writes. -/
structure Outcome (ε σ ω α : Type*) where
  result : Except ε α
  mem : σ
  writes : List ω

/-- Put earlier writes in front of an outcome's own. -/
def Outcome.after {ε σ ω α : Type*} (ws : List ω) (o : Outcome ε σ ω α) : Outcome ε σ ω α :=
  ⟨o.result, o.mem, ws ++ o.writes⟩

/-- Programs. -/
def Prog (ρ ε σ δ ω : Type*) (α : Type*) := ρ → World σ δ → Outcome ε σ ω α

universe u

namespace Prog

variable {ρ ε σ δ ω : Type*} {α β : Type u}

/-- Run a program. -/
def run (p : Prog ρ ε σ δ ω α) (r : ρ) (w : World σ δ) : Outcome ε σ ω α := p r w

/-- Raise an exception. -/
def raise (e : ε) : Prog ρ ε σ δ ω α := fun _ w => ⟨.error e, w.mem, []⟩

/-- The environment. -/
def env : Prog ρ ε σ δ ω ρ := fun r w => ⟨.ok r, w.mem, []⟩

/-- The memory. -/
def getMem : Prog ρ ε σ δ ω σ := fun _ w => ⟨.ok w.mem, w.mem, []⟩

/-- Change the memory. -/
def modifyMem (f : σ → σ) : Prog ρ ε σ δ ω Unit := fun _ w => ⟨.ok (), f w.mem, []⟩

/-- Read the disk. -/
def getDisk : Prog ρ ε σ δ ω δ := fun _ w => ⟨.ok w.disk, w.mem, []⟩

/-- Perform atomic writes, one after another. -/
def writeAll (ws : List ω) : Prog ρ ε σ δ ω Unit := fun _ w => ⟨.ok (), w.mem, ws⟩

/-- Run a program on a part of the memory; `missing` is raised where the memory
has no such part. -/
def focus {τ : Type*} (get : σ → Option τ) (put : σ → τ → σ) (missing : ε)
    (p : Prog ρ ε τ δ ω α) : Prog ρ ε σ δ ω α := fun r w =>
  match get w.mem with
  | none => ⟨.error missing, w.mem, []⟩
  | some m =>
      let o := p r ⟨m, w.disk⟩
      ⟨o.result, put w.mem o.mem, o.writes⟩

/-- Run a program on a part every memory has. -/
def zoom {τ : Type*} (get : σ → τ) (put : σ → τ → σ) (p : Prog ρ ε τ δ ω α) :
    Prog ρ ε σ δ ω α := fun r w =>
  let o := p r ⟨get w.mem, w.disk⟩
  ⟨o.result, put w.mem o.mem, o.writes⟩

/-- Run a program in a changed environment. -/
def inEnv (f : ρ → ρ) (p : Prog ρ ε σ δ ω α) : Prog ρ ε σ δ ω α := fun r w => p (f r) w

variable [Storage δ ω]

/-- Run one program and hand its result to the next. -/
protected def bind (p : Prog ρ ε σ δ ω α) (f : α → Prog ρ ε σ δ ω β) :
    Prog ρ ε σ δ ω β := fun r w =>
  let o := p r w
  match o.result with
  | .error e => ⟨.error e, o.mem, o.writes⟩
  | .ok a => (f a r ⟨o.mem, applyAll w.disk o.writes⟩).after o.writes

instance : Monad (Prog ρ ε σ δ ω) where
  pure a := fun _ w => ⟨.ok a, w.mem, []⟩
  bind := Prog.bind

/-- Run `p`; where it raises, keep its memory and writes and run the handler. -/
def tryCatch (p : Prog ρ ε σ δ ω α) (handler : ε → Prog ρ ε σ δ ω α) :
    Prog ρ ε σ δ ω α := fun r w =>
  let o := p r w
  match o.result with
  | .error e => (handler e r ⟨o.mem, applyAll w.disk o.writes⟩).after o.writes
  | .ok _ => o

/-- The result of a run. -/
def value (p : Prog ρ ε σ δ ω α) (r : ρ) (w : World σ δ) : Except ε α := (p.run r w).result

/-- The world a run leaves. -/
def exec (p : Prog ρ ε σ δ ω α) (r : ρ) (w : World σ δ) : World σ δ :=
  ⟨(p.run r w).mem, applyAll w.disk (p.run r w).writes⟩

/-- The disk after the first `k` writes of a run. -/
def crashAt (p : Prog ρ ε σ δ ω α) (r : ρ) (w : World σ δ) (k : ℕ) : δ :=
  applyAll w.disk ((p.run r w).writes.take k)

/-! ### Running the primitives -/

@[simp] theorem run_pure (a : α) (r : ρ) (w : World σ δ) :
    (pure a : Prog ρ ε σ δ ω α).run r w = ⟨.ok a, w.mem, []⟩ := rfl

omit [Storage δ ω] in
@[simp] theorem run_raise (e : ε) (r : ρ) (w : World σ δ) :
    (raise e : Prog ρ ε σ δ ω α).run r w = ⟨.error e, w.mem, []⟩ := rfl

omit [Storage δ ω] in
@[simp] theorem run_env (r : ρ) (w : World σ δ) :
    (env : Prog ρ ε σ δ ω ρ).run r w = ⟨.ok r, w.mem, []⟩ := rfl

omit [Storage δ ω] in
@[simp] theorem run_getMem (r : ρ) (w : World σ δ) :
    (getMem : Prog ρ ε σ δ ω σ).run r w = ⟨.ok w.mem, w.mem, []⟩ := rfl

omit [Storage δ ω] in
@[simp] theorem run_modifyMem (f : σ → σ) (r : ρ) (w : World σ δ) :
    (modifyMem f : Prog ρ ε σ δ ω Unit).run r w = ⟨.ok (), f w.mem, []⟩ := rfl

omit [Storage δ ω] in
@[simp] theorem run_getDisk (r : ρ) (w : World σ δ) :
    (getDisk : Prog ρ ε σ δ ω δ).run r w = ⟨.ok w.disk, w.mem, []⟩ := rfl

omit [Storage δ ω] in
@[simp] theorem run_writeAll (ws : List ω) (r : ρ) (w : World σ δ) :
    (writeAll ws : Prog ρ ε σ δ ω Unit).run r w = ⟨.ok (), w.mem, ws⟩ := rfl

omit [Storage δ ω] in
@[simp] theorem run_inEnv (f : ρ → ρ) (p : Prog ρ ε σ δ ω α) (r : ρ) (w : World σ δ) :
    (inEnv f p).run r w = p.run (f r) w := rfl

omit [Storage δ ω] in
theorem run_focus {τ : Type*} {get : σ → Option τ} {put : σ → τ → σ} {missing : ε}
    {p : Prog ρ ε τ δ ω α} {r : ρ} {w : World σ δ} {m m' : τ} {res : Except ε α} {ws : List ω}
    (hm : get w.mem = some m) (hp : p.run r ⟨m, w.disk⟩ = ⟨res, m', ws⟩) :
    (focus get put missing p).run r w = ⟨res, put w.mem m', ws⟩ := by
  have hp' : p r ⟨m, w.disk⟩ = ⟨res, m', ws⟩ := hp
  simp [focus, run, hm, hp']

omit [Storage δ ω] in
theorem run_zoom {τ : Type*} {get : σ → τ} {put : σ → τ → σ} {p : Prog ρ ε τ δ ω α} {r : ρ}
    {w : World σ δ} {res : Except ε α} {m : τ} {ws : List ω}
    (hp : p.run r ⟨get w.mem, w.disk⟩ = ⟨res, m, ws⟩) :
    (zoom get put p).run r w = ⟨res, put w.mem m, ws⟩ := by
  have hp' : p r ⟨get w.mem, w.disk⟩ = ⟨res, m, ws⟩ := hp
  simp [zoom, run, hp']

/-! ### Running a composite -/

theorem run_bind_error {p : Prog ρ ε σ δ ω α} {f : α → Prog ρ ε σ δ ω β} {r : ρ}
    {w : World σ δ} {e : ε} {m : σ} {ws : List ω} (h : p.run r w = ⟨.error e, m, ws⟩) :
    (p >>= f).run r w = ⟨.error e, m, ws⟩ := by
  have h' : p r w = ⟨.error e, m, ws⟩ := h
  show Prog.bind p f r w = _
  simp [Prog.bind, h']

theorem run_bind_ok {p : Prog ρ ε σ δ ω α} {f : α → Prog ρ ε σ δ ω β} {r : ρ}
    {w : World σ δ} {a : α} {m : σ} {ws : List ω} (h : p.run r w = ⟨.ok a, m, ws⟩) :
    (p >>= f).run r w = ((f a).run r ⟨m, applyAll w.disk ws⟩).after ws := by
  have h' : p r w = ⟨.ok a, m, ws⟩ := h
  show Prog.bind p f r w = _
  simp [Prog.bind, h', run]

/-- A first part that only reads hands over its result. -/
theorem run_bind_read {p : Prog ρ ε σ δ ω α} {f : α → Prog ρ ε σ δ ω β} {r : ρ}
    {w : World σ δ} {a : α} (h : p.run r w = ⟨.ok a, w.mem, []⟩) :
    (p >>= f).run r w = (f a).run r w :=
  run_bind_ok h

theorem run_bind (p : Prog ρ ε σ δ ω α) (f : α → Prog ρ ε σ δ ω β) (r : ρ)
    (w : World σ δ) :
    (p >>= f).run r w =
      match (p.run r w).result with
      | .error e => ⟨.error e, (p.run r w).mem, (p.run r w).writes⟩
      | .ok a => ((f a).run r (p.exec r w)).after (p.run r w).writes := rfl

theorem run_bind_congr {p q : Prog ρ ε σ δ ω α} {f g : α → Prog ρ ε σ δ ω β} {r : ρ}
    {w : World σ δ} (h : p.run r w = q.run r w) (hrest : ∀ a w', (f a).run r w' = (g a).run r w') :
    (p >>= f).run r w = (q >>= g).run r w := by
  rw [run_bind, run_bind, Prog.exec, Prog.exec, h]
  rcases (q.run r w).result with e | a
  · rfl
  · exact congrArg (Outcome.after _) (hrest a _)

theorem run_tryCatch (p : Prog ρ ε σ δ ω α) (handler : ε → Prog ρ ε σ δ ω α) (r : ρ)
    (w : World σ δ) :
    (p.tryCatch handler).run r w =
      match (p.run r w).result with
      | .error e => ((handler e).run r (p.exec r w)).after (p.run r w).writes
      | .ok _ => p.run r w := rfl

/-! ### Results, worlds and crash points of a composite -/

/-- The world that a known run leaves. -/
theorem exec_of_run {p : Prog ρ ε σ δ ω α} {r : ρ} {w : World σ δ} {result : Except ε α} {m : σ}
    {ws : List ω} (h : p.run r w = ⟨result, m, ws⟩) : p.exec r w = ⟨m, applyAll w.disk ws⟩ := by
  rw [exec, h]

/-- Programs that run alike leave the same world. -/
theorem exec_congr {p q : Prog ρ ε σ δ ω α} {r : ρ} {w : World σ δ} (h : p.run r w = q.run r w) :
    p.exec r w = q.exec r w := by
  rw [exec, exec, h]

theorem exec_bind_ok {p : Prog ρ ε σ δ ω α} {f : α → Prog ρ ε σ δ ω β} {r : ρ}
    {w : World σ δ} {a : α} (h : p.value r w = .ok a) :
    (p >>= f).exec r w = (f a).exec r (p.exec r w) := by
  have h' : (p.run r w).result = .ok a := h
  simp only [exec, run_bind, h', Outcome.after, applyAll_append]

theorem exec_bind_error {p : Prog ρ ε σ δ ω α} {f : α → Prog ρ ε σ δ ω β} {r : ρ}
    {w : World σ δ} {e : ε} (h : p.value r w = .error e) :
    (p >>= f).exec r w = p.exec r w := by
  have h' : (p.run r w).result = .error e := h
  simp only [exec, run_bind, h']

theorem value_bind_ok {p : Prog ρ ε σ δ ω α} {f : α → Prog ρ ε σ δ ω β} {r : ρ}
    {w : World σ δ} {a : α} (h : p.value r w = .ok a) :
    (p >>= f).value r w = (f a).value r (p.exec r w) := by
  have h' : (p.run r w).result = .ok a := h
  simp only [value, run_bind, h', Outcome.after]

theorem value_bind_error {p : Prog ρ ε σ δ ω α} {f : α → Prog ρ ε σ δ ω β} {r : ρ}
    {w : World σ δ} {e : ε} (h : p.value r w = .error e) :
    (p >>= f).value r w = .error e := by
  have h' : (p.run r w).result = .error e := h
  simp only [value, run_bind, h']

/-- A program whose result is replaced. -/
theorem exec_bind_pure (p : Prog ρ ε σ δ ω α) (f : α → β) (r : ρ) (w : World σ δ) :
    (p >>= fun a => pure (f a)).exec r w = p.exec r w := by
  rcases hv : p.value r w with e | a
  · exact exec_bind_error hv
  · exact exec_bind_ok hv

theorem value_bind_pure_eq_ok {p : Prog ρ ε σ δ ω α} {f : α → β} {r : ρ} {w : World σ δ} {b : β} :
    (p >>= fun a => pure (f a)).value r w = .ok b ↔ ∃ a, p.value r w = .ok a ∧ f a = b := by
  rcases hv : p.value r w with e | a
  · simp [value_bind_error hv]
  · rw [value_bind_ok hv]
    simp [value]

theorem crashAt_bind_ok {p : Prog ρ ε σ δ ω α} {f : α → Prog ρ ε σ δ ω β} {r : ρ}
    {w : World σ δ} {a : α} (h : p.value r w = .ok a) (k : ℕ) :
    (p >>= f).crashAt r w k =
      if k ≤ (p.run r w).writes.length then p.crashAt r w k
      else (f a).crashAt r (p.exec r w) (k - (p.run r w).writes.length) := by
  have h' : (p.run r w).result = .ok a := h
  simp only [crashAt, exec, run_bind, h', Outcome.after]
  split
  -- the first `k` writes are all of the first part
  · next hk => rw [List.take_append_of_le_length hk]
  · next hk =>
      rw [List.take_append, List.take_of_length_le (by omega), applyAll_append]

/-- A composite that returned: both parts did. -/
theorem value_bind_eq_ok {p : Prog ρ ε σ δ ω α} {f : α → Prog ρ ε σ δ ω β} {r : ρ}
    {w : World σ δ} {b : β} :
    (p >>= f).value r w = .ok b ↔
      ∃ a, p.value r w = .ok a ∧ (f a).value r (p.exec r w) = .ok b := by
  constructor
  · intro h
    rcases hp : p.value r w with e | a
    · rw [value_bind_error hp] at h
      cases h
    · exact ⟨a, rfl, (value_bind_ok hp).symm.trans h⟩
  · rintro ⟨a, ha, hb⟩
    rw [value_bind_ok ha, hb]

/-! ### Programs that only read -/

/-- A program that leaves memory and disk alone, however it ends. -/
def ReadOnly (p : Prog ρ ε σ δ ω α) : Prop :=
  ∀ r w, (p.run r w).mem = w.mem ∧ (p.run r w).writes = []

theorem readOnly_pure (a : α) : ReadOnly (pure a : Prog ρ ε σ δ ω α) := fun _ _ => ⟨rfl, rfl⟩

omit [Storage δ ω] in
theorem readOnly_raise (e : ε) : ReadOnly (raise e : Prog ρ ε σ δ ω α) := fun _ _ => ⟨rfl, rfl⟩

omit [Storage δ ω] in
theorem readOnly_env : ReadOnly (env : Prog ρ ε σ δ ω ρ) := fun _ _ => ⟨rfl, rfl⟩

omit [Storage δ ω] in
theorem readOnly_getMem : ReadOnly (getMem : Prog ρ ε σ δ ω σ) := fun _ _ => ⟨rfl, rfl⟩

omit [Storage δ ω] in
theorem readOnly_getDisk : ReadOnly (getDisk : Prog ρ ε σ δ ω δ) := fun _ _ => ⟨rfl, rfl⟩

omit [Storage δ ω] in
theorem ReadOnly.inEnv {p : Prog ρ ε σ δ ω α} (hp : p.ReadOnly) (f : ρ → ρ) :
    (Prog.inEnv f p).ReadOnly := fun r w => hp (f r) w

omit [Storage δ ω] in
theorem ReadOnly.run_eq {p : Prog ρ ε σ δ ω α} (hp : p.ReadOnly) (r : ρ) (w : World σ δ) :
    p.run r w = ⟨p.value r w, w.mem, []⟩ := by
  obtain ⟨hmem, hwrites⟩ := hp r w
  rw [← hmem, ← hwrites]
  rfl

theorem ReadOnly.exec_eq {p : Prog ρ ε σ δ ω α} (hp : p.ReadOnly) (r : ρ) (w : World σ δ) :
    p.exec r w = w := by
  rw [exec, hp.run_eq]
  rfl

/-- A first part that only reads either raises, and then so does the whole, or
hands over its result. -/
theorem ReadOnly.run_bind {p : Prog ρ ε σ δ ω α} (hp : p.ReadOnly) (f : α → Prog ρ ε σ δ ω β)
    (r : ρ) (w : World σ δ) :
    (∃ e, p.value r w = .error e ∧ (p >>= f).run r w = ⟨.error e, w.mem, []⟩) ∨
      ∃ a, p.value r w = .ok a ∧ (p >>= f).run r w = (f a).run r w := by
  have hrun := hp.run_eq r w
  rcases hv : p.value r w with e | a
  · rw [hv] at hrun
    exact Or.inl ⟨e, rfl, run_bind_error hrun⟩
  · rw [hv] at hrun
    exact Or.inr ⟨a, rfl, run_bind_read hrun⟩

/-- To show something of how a composite ends whose first part only reads, show
it of the exceptions, and of the rest for what the first part may return. -/
theorem ReadOnly.bind_rule {p : Prog ρ ε σ δ ω α} (hp : p.ReadOnly) {f : α → Prog ρ ε σ δ ω β}
    {r : ρ} {w : World σ δ} {P : Outcome ε σ ω β → Prop}
    (herror : ∀ e, p.value r w = .error e → P ⟨.error e, w.mem, []⟩)
    (hok : ∀ a, p.value r w = .ok a → P ((f a).run r w)) : P ((p >>= f).run r w) := by
  obtain ⟨e, he, hrun⟩ | ⟨a, ha, hrun⟩ := hp.run_bind f r w
  · rw [hrun]
    exact herror e he
  · rw [hrun]
    exact hok a ha

theorem ReadOnly.value_bind_eq_ok {p : Prog ρ ε σ δ ω α} (hp : p.ReadOnly)
    {f : α → Prog ρ ε σ δ ω β} {r : ρ} {w : World σ δ} {b : β} :
    (p >>= f).value r w = .ok b ↔ ∃ a, p.value r w = .ok a ∧ (f a).value r w = .ok b := by
  constructor
  · intro h
    obtain ⟨e, -, hrun⟩ | ⟨a, ha, hrun⟩ := hp.run_bind f r w
    · rw [value, hrun] at h
      cases h
    · rw [value, hrun] at h
      exact ⟨a, ha, h⟩
  · rintro ⟨a, ha, hb⟩
    rw [Prog.value_bind_ok ha, hp.exec_eq, hb]

/-- A first part that only reads and returns leaves the value to the rest. -/
theorem ReadOnly.value_bind_of_ok {p : Prog ρ ε σ δ ω α} (hp : p.ReadOnly)
    {f : α → Prog ρ ε σ δ ω β} {r : ρ} {w : World σ δ} {a : α} (ha : p.value r w = .ok a) :
    (p >>= f).value r w = (f a).value r w := by
  rw [Prog.value_bind_ok ha, hp.exec_eq]

theorem ReadOnly.bind {p : Prog ρ ε σ δ ω α} {f : α → Prog ρ ε σ δ ω β} (hp : p.ReadOnly)
    (hf : ∀ a, (f a).ReadOnly) : (p >>= f).ReadOnly := by
  intro r w
  obtain ⟨e, -, hrun⟩ | ⟨a, -, hrun⟩ := hp.run_bind f r w
  · rw [hrun]
    exact ⟨rfl, rfl⟩
  · rw [hrun]
    exact hf a r w

theorem readOnly_forM {β : Type*} {f : β → Prog ρ ε σ δ ω PUnit} {l : List β}
    (hf : ∀ b ∈ l, (f b).ReadOnly) : (l.forM f).ReadOnly := by
  induction l with
  | nil => exact readOnly_pure _
  | cons b l ih =>
      exact (hf b List.mem_cons_self).bind fun _ =>
        ih fun b' hb' => hf b' (List.mem_cons_of_mem _ hb')

/-- A loop that only reads returns just where every turn does. -/
theorem value_forM_of_readOnly {β : Type*} {f : β → Prog ρ ε σ δ ω PUnit} {l : List β}
    (hf : ∀ b ∈ l, (f b).ReadOnly) {r : ρ} {w : World σ δ} :
    (l.forM f).value r w = .ok ⟨⟩ ↔ ∀ b ∈ l, (f b).value r w = .ok ⟨⟩ := by
  induction l with
  | nil => simp [value, List.forM]
  | cons b l ih =>
      have hb := hf b List.mem_cons_self
      have ih' := ih fun b' hb' => hf b' (List.mem_cons_of_mem _ hb')
      show (f b >>= fun _ => l.forM f).value r w = .ok ⟨⟩ ↔ _
      rw [List.forall_mem_cons]
      -- a turn that raises ends the loop, one that returns leaves the world as it was
      rcases hv : (f b).value r w with e | _
      · rw [value_bind_error hv]
        simp
      · rw [value_bind_ok hv, hb.exec_eq, ih']
        simp

/-- What such a loop raises, one of its turns raises. -/
theorem exists_of_value_forM_error {β : Type*} {f : β → Prog ρ ε σ δ ω PUnit} {l : List β}
    (hf : ∀ b ∈ l, (f b).ReadOnly) {r : ρ} {w : World σ δ} {e : ε}
    (h : (l.forM f).value r w = .error e) : ∃ b ∈ l, (f b).value r w = .error e := by
  induction l with
  | nil => cases h
  | cons b l ih =>
      have hb := hf b List.mem_cons_self
      change (f b >>= fun _ => l.forM f).value r w = .error e at h
      rcases hv : (f b).value r w with e' | _
      · rw [value_bind_error hv] at h
        exact ⟨b, List.mem_cons_self, hv.trans h⟩
      · rw [hb.value_bind_of_ok hv] at h
        obtain ⟨b', hb', he⟩ := ih (fun b' hb' => hf b' (List.mem_cons_of_mem _ hb')) h
        exact ⟨b', List.mem_cons_of_mem _ hb', he⟩

/-! ### Loops -/

/-- A loop of one turn is the turn. -/
theorem run_forM_singleton {β : Type*} (f : β → Prog ρ ε σ δ ω PUnit) (b : β) (r : ρ)
    (w : World σ δ) : ([b].forM f).run r w = (f b).run r w := by
  show (f b >>= fun _ => pure ⟨⟩).run r w = (f b).run r w
  rw [run_bind]
  rcases h : (f b).run r w with ⟨_ | _, m, ws⟩ <;> simp [Outcome.after, exec, h]

/-- Loops run alike where their turns do. -/
theorem run_forM_congr {β : Type*} {f g : β → Prog ρ ε σ δ ω PUnit} {r : ρ}
    (h : ∀ b w, (f b).run r w = (g b).run r w) (l : List β) (w : World σ δ) :
    (l.forM f).run r w = (l.forM g).run r w := by
  induction l generalizing w with
  | nil => rfl
  | cons b l ih => exact run_bind_congr (h b w) fun _ => ih

/-- **Simulation of a loop.**  Where every turn of a loop succeeds and moves
the world in step with an abstract state, the loop succeeds and ends in step
with the fold of the abstract steps. -/
theorem forM_simulation {β S : Type*} {f : β → Prog ρ ε σ δ ω PUnit} {step : S → β → S}
    {r : ρ} (R : World σ δ → S → Prop) {l : List β} {w : World σ δ} {s : S} (h0 : R w s)
    (hstep : ∀ b ∈ l, ∀ w s, R w s →
      (f b).value r w = .ok ⟨⟩ ∧ R ((f b).exec r w) (step s b)) :
    (l.forM f).value r w = .ok ⟨⟩ ∧ R ((l.forM f).exec r w) (l.foldl step s) := by
  induction l generalizing w s with
  | nil => exact ⟨rfl, h0⟩
  | cons b l ih =>
      obtain ⟨hok, hR⟩ := hstep b List.mem_cons_self w s h0
      show (f b >>= fun _ => l.forM f).value r w = .ok ⟨⟩ ∧
        R ((f b >>= fun _ => l.forM f).exec r w) (l.foldl step (step s b))
      rw [value_bind_ok hok, exec_bind_ok hok]
      exact ih hR fun b' hb' => hstep b' (List.mem_cons_of_mem _ hb')

/-- What every turn that returns keeps, a loop that returns keeps. -/
theorem forM_keeps {β : Type*} {f : β → Prog ρ ε σ δ ω PUnit} {r : ρ} {P : World σ δ → Prop}
    {l : List β} {w : World σ δ} (h0 : P w)
    (hturn : ∀ b ∈ l, ∀ w, P w → (f b).value r w = .ok ⟨⟩ → P ((f b).exec r w))
    (hok : (l.forM f).value r w = .ok ⟨⟩) : P ((l.forM f).exec r w) := by
  induction l generalizing w with
  | nil => exact h0
  | cons b l ih =>
      have hbind : (f b >>= fun _ => l.forM f).value r w = .ok ⟨⟩ := hok
      obtain ⟨_, hb, hrest⟩ := value_bind_eq_ok.mp hbind
      show P ((f b >>= fun _ => l.forM f).exec r w)
      rw [exec_bind_ok hb]
      exact ih (hturn b List.mem_cons_self w h0 hb)
        (fun b' hb' => hturn b' (List.mem_cons_of_mem _ hb')) hrest

/-- **Crash points of a loop.**  `R` relates the world between two turns to an
abstract state, `Q` the disk alone.  Where a crash in one turn leaves the disk
as before or as after the turn, a crash in the loop leaves it as after some of
the turns. -/
theorem forM_crash {β S : Type*} {f : β → Prog ρ ε σ δ ω PUnit} {step : S → β → S} {r : ρ}
    (R : World σ δ → S → Prop) (Q : δ → S → Prop) {l : List β} {w : World σ δ} {s : S}
    (hQ : ∀ w s, R w s → Q w.disk s) (h0 : R w s)
    (hturn : ∀ b ∈ l, ∀ w s, R w s →
      (f b).value r w = .ok ⟨⟩ ∧ R ((f b).exec r w) (step s b) ∧
        ∀ k, Q ((f b).crashAt r w k) s ∨ Q ((f b).crashAt r w k) (step s b)) (k : ℕ) :
    ∃ p, p <+: l ∧ Q ((l.forM f).crashAt r w k) (p.foldl step s) := by
  induction l generalizing w s k with
  | nil =>
      refine ⟨[], List.prefix_rfl, ?_⟩
      show Q (applyAll w.disk ([].take k)) s
      rw [List.take_nil]
      exact hQ w s h0
  | cons b l ih =>
      obtain ⟨hok, hR, hcrash⟩ := hturn b List.mem_cons_self w s h0
      show ∃ p, p <+: b :: l ∧ Q ((f b >>= fun _ => l.forM f).crashAt r w k) (p.foldl step s)
      rw [crashAt_bind_ok hok]
      split
      -- the crash is in the first turn
      · rcases hcrash k with hbefore | hafter
        · exact ⟨[], List.nil_prefix, hbefore⟩
        · exact ⟨[b], ⟨l, rfl⟩, hafter⟩
      -- the first turn is over, and the crash is in the rest of the loop
      · obtain ⟨p, hp, hQp⟩ := ih hR (fun b' hb' => hturn b' (List.mem_cons_of_mem _ hb'))
          (k - ((f b).run r w).writes.length)
        exact ⟨b :: p, List.cons_prefix_cons.mpr ⟨rfl, hp⟩, hQp⟩

end Prog
