/-
JsonpySql/EmittedWrites.lean

What the writes of a program are like, however it ends.

A kind of writes (`WriteKind`) comes with a property of disks that every write
of the kind keeps.  A program is of a kind (`K.Emits p Q`) when, started on a
disk with the property, it makes only writes of the kind; `Q` is what is known
of a result.  The rules follow the program: `emits_bind` hands what is known of
the first result to the second part, a read hands over the property of the
disk, and a handler may rely on nothing but that property.

Whatever writes of a kind are made, as far as a crash lets them, they leave a disk
with the property (`disk_applyAll`).
-/
import JsonpySql.CrashProg

/-- A kind of writes, and what they keep of a disk. -/
structure WriteKind (δ : Type*) {ω : Type*} [Storage δ ω] where
  disk : δ → Prop
  write : ω → Prop
  keeps : ∀ d x, disk d → write x → disk (Storage.apply d x)

namespace WriteKind

universe u

variable {ρ ε σ δ ω : Type*} {α β : Type u} [Storage δ ω] {K : WriteKind δ}

open Prog

theorem disk_applyAll (K : WriteKind δ) {d : δ} {ws : List ω} (hd : K.disk d)
    (hws : ∀ x ∈ ws, K.write x) : K.disk (applyAll d ws) :=
  applyAll_induction hd fun x hx d' hd' => K.keeps d' x hd' (hws x hx)

/-- Started on a disk of the kind, the program makes only writes of the kind,
and what it returns has `Q`. -/
def Emits (K : WriteKind δ) (p : Prog ρ ε σ δ ω α) (Q : α → Prop) : Prop :=
  ∀ r w, K.disk w.disk →
    (∀ x ∈ (p.run r w).writes, K.write x) ∧ ∀ a, p.value r w = .ok a → Q a

theorem Emits.mono {p : Prog ρ ε σ δ ω α} {Q Q' : α → Prop} (h : K.Emits p Q)
    (hQ : ∀ a, Q a → Q' a) : K.Emits p Q' :=
  fun r w hw => ⟨(h r w hw).1, fun a ha => hQ a ((h r w hw).2 a ha)⟩

/-- What a program leaves. -/
theorem Emits.disk_exec {p : Prog ρ ε σ δ ω α} {Q : α → Prop} (h : K.Emits p Q) {r : ρ}
    {w : World σ δ} (hw : K.disk w.disk) : K.disk (p.exec r w).disk :=
  K.disk_applyAll hw (h r w hw).1

/-! ### Rules -/

theorem emits_pure {Q : α → Prop} {a : α} (ha : Q a) :
    K.Emits (pure a : Prog ρ ε σ δ ω α) Q := by
  intro r w _
  refine ⟨by simp, fun b hb => ?_⟩
  obtain rfl : a = b := Except.ok.inj hb
  exact ha

theorem emits_raise {Q : α → Prop} (e : ε) : K.Emits (raise e : Prog ρ ε σ δ ω α) Q := by
  intro r w _
  exact ⟨by simp, fun b hb => by cases hb⟩

/-- A program that only reads. -/
theorem emits_readOnly {p : Prog ρ ε σ δ ω α} (hp : p.ReadOnly) : K.Emits p fun _ => True :=
  fun r w _ => ⟨by simp [(hp r w).2], fun _ _ => trivial⟩

theorem emits_getDisk : K.Emits (getDisk : Prog ρ ε σ δ ω δ) K.disk := by
  intro r w hw
  refine ⟨by simp, fun d hd => ?_⟩
  obtain rfl : w.disk = d := Except.ok.inj hd
  exact hw

theorem emits_modifyMem (f : σ → σ) :
    K.Emits (modifyMem f : Prog ρ ε σ δ ω Unit) fun _ => True :=
  fun r w _ => ⟨by simp, fun _ _ => trivial⟩

theorem emits_writeAll {ws : List ω} (h : ∀ x ∈ ws, K.write x) :
    K.Emits (writeAll ws : Prog ρ ε σ δ ω Unit) fun _ => True :=
  fun _ _ _ => ⟨h, fun _ _ => trivial⟩

theorem emits_bind {p : Prog ρ ε σ δ ω α} {f : α → Prog ρ ε σ δ ω β} {Q : α → Prop}
    {R : β → Prop} (hp : K.Emits p Q) (hf : ∀ a, Q a → K.Emits (f a) R) :
    K.Emits (p >>= f) R := by
  intro r w hw
  rcases hv : p.value r w with e | a
  · have hres : (p.run r w).result = .error e := hv
    refine ⟨?_, fun b hb => ?_⟩
    · rw [run_bind]
      simp only [hres]
      exact (hp r w hw).1
    · rw [value_bind_error hv] at hb
      cases hb
  · have hres : (p.run r w).result = .ok a := hv
    -- the second part starts on a disk of the kind
    have hrest := hf a ((hp r w hw).2 a hv) r (p.exec r w) (hp.disk_exec hw)
    refine ⟨?_, fun b hb => hrest.2 b ?_⟩
    · rw [run_bind]
      simp only [hres, Outcome.after, List.mem_append]
      rintro x (hx | hx)
      · exact (hp r w hw).1 x hx
      · exact hrest.1 x hx
    · rwa [value_bind_ok hv] at hb

theorem emits_tryCatch {p : Prog ρ ε σ δ ω α} {handler : ε → Prog ρ ε σ δ ω α} {Q : α → Prop}
    (hp : K.Emits p Q) (hh : ∀ e, K.Emits (handler e) Q) :
    K.Emits (p.tryCatch handler) Q := by
  intro r w hw
  have hrun := run_tryCatch p handler r w
  rcases hv : (p.run r w).result with e | a
  · have hrest := hh e r (p.exec r w) (hp.disk_exec hw)
    simp only [hv] at hrun
    refine ⟨?_, fun b hb => hrest.2 b ?_⟩
    · rw [hrun]
      simp only [Outcome.after, List.mem_append]
      rintro x (hx | hx)
      · exact (hp r w hw).1 x hx
      · exact hrest.1 x hx
    · rw [value, hrun] at hb
      exact hb
  · simp only [hv] at hrun
    refine ⟨by rw [hrun]; exact (hp r w hw).1, fun b hb => (hp r w hw).2 b ?_⟩
    rw [value, hrun] at hb
    exact hb

theorem emits_forM {β : Type*} {f : β → Prog ρ ε σ δ ω PUnit} {l : List β}
    (h : ∀ b ∈ l, K.Emits (f b) fun _ => True) : K.Emits (l.forM f) fun _ => True := by
  induction l with
  | nil => exact emits_pure trivial
  | cons b l ih =>
      exact emits_bind (h b List.mem_cons_self) fun _ _ =>
        ih fun b' hb' => h b' (List.mem_cons_of_mem _ hb')

theorem emits_focus {τ : Type*} {get : σ → Option τ} {put : σ → τ → σ} {missing : ε}
    {p : Prog ρ ε τ δ ω α} {Q : α → Prop} (hp : K.Emits p Q) :
    K.Emits (focus get put missing p) Q := by
  intro r w hw
  rcases hm : get w.mem with _ | m
  · simp [value, run, focus, hm]
  · have h := hp r ⟨m, w.disk⟩ hw
    simpa [value, run, focus, hm] using h

end WriteKind
