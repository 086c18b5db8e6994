/-
JsonpySql/FileLock.lean

Exclusive locks on a file that may be replaced.

A client opens a path, asks for the lock of the file it got until the lock is
granted or the client gives up, runs its block and releases the lock.  The lock
belongs to the file, not to the path: a block may put a new file under the path,
and whoever opens the path from then on asks for another lock than those who had
opened it before.

So blocks exclude each other where every lock is granted on the file the path
names, and no client inside has replaced it (`exclusive_of_current`).  That no
run gets past this can be read off the tasks: no client may replace the file, or
no other client has anything to do (`exclusive_iff`).
-/
import Mathlib.Data.Nat.Notation
import Mathlib.Logic.Function.Basic
import Mathlib.Logic.Relation

namespace FileLock

/-! ### Clients -/

/-- Where a client stands: it has nothing open, it has opened a file for a task,
or it is inside the block of the task, and has replaced the file or not. -/
inductive Phase (α : Type*)
  | idle
  | waiting (task : α) (file : ℕ)
  | inside (task : α) (file : ℕ) (replaced : Bool)

/-- The file the path names, the tasks every client has left, and where it
stands.  Files are numbered in the order in which the path has named them. -/
structure State (ι α : Type*) where
  path : ℕ
  todo : ι → List α
  phase : ι → Phase α

/-- What a client does next. -/
inductive Event (ι : Type*)
  | opens (i : ι)
  | grant (i : ι)
  | giveUp (i : ι)
  | replace (i : ι)
  | release (i : ι)

/-- The client that takes the step. -/
def Event.client {ι : Type*} : Event ι → ι
  | .opens i | .grant i | .giveUp i | .replace i | .release i => i

variable {ι α : Type*} [DecidableEq ι]

namespace State

/-- Nobody has begun. -/
def start (programs : ι → List α) : State ι α := ⟨0, programs, fun _ => .idle⟩

def move (s : State ι α) (i : ι) (p : Phase α) : State ι α :=
  { s with phase := Function.update s.phase i p }

/-- A client is inside its block, with the lock of this file. -/
def Holds (s : State ι α) (i : ι) (file : ℕ) : Prop :=
  ∃ task replaced, s.phase i = .inside task file replaced

def Inside (s : State ι α) (i : ι) : Prop := ∃ file, s.Holds i file

/-- No two clients are inside. -/
def Exclusive (s : State ι α) : Prop := ∀ i j, s.Inside i → s.Inside j → i = j

end State

/-- One step of one client.  A lock is granted on a file that nobody holds; a
block that replaces the file does so once, and a block may end at any time, by an
error if need be. -/
inductive Step (replaces : α → Prop) : State ι α → Event ι → State ι α → Prop
  | opens {s i task tasks} (hidle : s.phase i = .idle) (htodo : s.todo i = task :: tasks) :
      Step replaces s (.opens i)
        ({ s with todo := Function.update s.todo i tasks }.move i (.waiting task s.path))
  | grant {s i task file} (hwaiting : s.phase i = .waiting task file)
      (hfree : ∀ j, ¬s.Holds j file) :
      Step replaces s (.grant i) (s.move i (.inside task file false))
  | giveUp {s i task file} (hwaiting : s.phase i = .waiting task file) :
      Step replaces s (.giveUp i) (s.move i .idle)
  | replace {s i task file} (hinside : s.phase i = .inside task file false)
      (hreplaces : replaces task) :
      Step replaces s (.replace i)
        ({ s with path := s.path + 1 }.move i (.inside task file true))
  | release {s i task file replaced} (hinside : s.phase i = .inside task file replaced) :
      Step replaces s (.release i) (s.move i .idle)

/-- A run of any number of steps. -/
def Reaches (replaces : α → Prop) : State ι α → State ι α → Prop :=
  Relation.ReflTransGen fun s t => ∃ e, Step replaces s e t

/-- The lock is granted on the file the path names, and no client inside has
replaced it. -/
def Current (s : State ι α) : Event ι → Prop
  | .grant i => (∀ task file, s.phase i = .waiting task file → file = s.path) ∧
      ∀ j task file replaced, s.phase j = .inside task file replaced → replaced = false
  | _ => True

/-- A run whose locks are all granted so. -/
def ReachesCurrent (replaces : α → Prop) : State ι α → State ι α → Prop :=
  Relation.ReflTransGen fun s t => ∃ e, Step replaces s e t ∧ Current s e

variable {replaces : α → Prop} {s t : State ι α} {e : Event ι} {i j : ι}

/-! ### Who is inside -/

theorem phase_move (s : State ι α) (i j : ι) (p : Phase α) :
    (s.move i p).phase j = if j = i then p else s.phase j :=
  Function.update_apply s.phase i p j

/-- A step is taken by a client that has something to do. -/
theorem Step.busy (h : Step replaces s e t) :
    s.todo e.client ≠ [] ∨ s.phase e.client ≠ .idle := by
  cases h with
  | opens hidle htodo => exact Or.inl (by rw [Event.client, htodo]; exact List.cons_ne_nil _ _)
  | grant hphase | giveUp hphase | replace hphase | release hphase =>
      exact Or.inr (by rw [Event.client, hphase]; nofun)

/-- The other clients stay as they are. -/
theorem Step.frame (h : Step replaces s e t) (hj : j ≠ e.client) :
    t.todo j = s.todo j ∧ t.phase j = s.phase j := by
  cases h with
  | opens _ _ => exact ⟨Function.update_of_ne hj _ _, Function.update_of_ne hj _ _⟩
  | grant _ _ | giveUp _ | replace _ _ | release _ => exact ⟨rfl, Function.update_of_ne hj _ _⟩

/-- A client that moves to where it holds no lock leaves the others as they
were. -/
theorem inside_of_move {p : Phase α} (hp : ∀ task file replaced, p ≠ .inside task file replaced)
    {task : α} {file : ℕ} {replaced : Bool}
    (h : (s.move i p).phase j = .inside task file replaced) :
    s.phase j = .inside task file replaced := by
  rw [phase_move] at h
  split at h
  · exact absurd h (hp _ _ _)
  · exact h

/-! ### Runs on current files -/

/-- At most one client is inside, and unless it has replaced the file, it holds
the one the path names. -/
structure Guarded (s : State ι α) : Prop where
  exclusive : s.Exclusive
  current : ∀ i task file, s.phase i = .inside task file false → file = s.path

omit [DecidableEq ι] in
/-- Fewer clients inside, and the same file. -/
theorem Guarded.mono (h : Guarded s) (hpath : t.path = s.path)
    (hphase : ∀ j task file replaced, t.phase j = .inside task file replaced →
      s.phase j = .inside task file replaced) : Guarded t where
  exclusive := by
    rintro i j ⟨file, task, replaced, hi⟩ ⟨file', task', replaced', hj⟩
    exact h.exclusive i j ⟨file, task, replaced, hphase _ _ _ _ hi⟩
      ⟨file', task', replaced', hphase _ _ _ _ hj⟩
  current i task file hi := hpath ▸ h.current i task file (hphase _ _ _ _ hi)

/-- **A step on the current file** keeps it. -/
theorem Guarded.step (h : Guarded s) (hstep : Step replaces s e t) (hcurrent : Current s e) :
    Guarded t := by
  cases hstep with
  | opens hidle htodo =>
      exact h.mono rfl fun _ _ _ _ hj => inside_of_move (by rintro _ _ _ ⟨⟩) hj
  | giveUp hwaiting =>
      exact h.mono rfl fun _ _ _ _ hj => inside_of_move (by rintro _ _ _ ⟨⟩) hj
  | release hinside =>
      exact h.mono rfl fun _ _ _ _ hj => inside_of_move (by rintro _ _ _ ⟨⟩) hj
  | @grant i task file hwaiting hfree =>
      obtain ⟨hfile, hnone⟩ := hcurrent
      -- whoever were inside would hold the lock that is granted
      have hempty : ∀ j, ¬s.Inside j := by
        rintro j ⟨file', task', replaced, hj⟩
        obtain rfl := hnone j task' file' replaced hj
        obtain rfl : file' = file :=
          (h.current j task' file' hj).trans (hfile task file hwaiting).symm
        exact hfree j ⟨task', false, hj⟩
      have hself : ∀ j, (s.move i (.inside task file false)).Inside j → j = i := by
        rintro j ⟨file', task', replaced, hj⟩
        by_contra hne
        rw [phase_move, if_neg hne] at hj
        exact hempty j ⟨file', task', replaced, hj⟩
      refine ⟨fun j k hj hk => (hself j hj).trans (hself k hk).symm, fun j task' file' hj => ?_⟩
      obtain rfl := hself j ⟨file', task', false, hj⟩
      rw [phase_move, if_pos rfl] at hj
      cases hj
      exact hfile task file hwaiting
  | @replace i task file hinside hreplaces =>
      have hback : ∀ j, ({ s with path := s.path + 1 }.move i (.inside task file true)).Inside j →
          s.Inside j := by
        rintro j ⟨file', task', replaced, hj⟩
        rw [phase_move] at hj
        split at hj
        · next hji => exact hji ▸ ⟨file, task, false, hinside⟩
        · exact ⟨file', task', replaced, hj⟩
      refine ⟨fun j k hj hk => h.exclusive j k (hback j hj) (hback k hk),
        fun j task' file' hj => ?_⟩
      -- nobody but the client that has replaced the file is inside
      obtain rfl : j = i :=
        h.exclusive j i (hback j ⟨file', task', false, hj⟩) ⟨file, task, false, hinside⟩
      rw [phase_move, if_pos rfl] at hj
      cases hj

/-- **Locks granted on the current file exclude.** -/
theorem exclusive_of_current (h : Guarded s) (hrun : ReachesCurrent replaces s t) :
    t.Exclusive := by
  have hguarded : Guarded t := by
    induction hrun with
    | refl => exact h
    | tail _ hstep ih =>
        obtain ⟨e, hstep, hcurrent⟩ := hstep
        exact ih.step hstep hcurrent
  exact hguarded.exclusive

omit [DecidableEq ι] in
theorem guarded_start (programs : ι → List α) : Guarded (State.start programs) where
  exclusive := by rintro i j ⟨file, task, replaced, ⟨⟩⟩
  current := nofun

/-! ### Tasks that exclude each other -/

/-- Nobody has, or is at, a task that replaces the file. -/
structure NoReplace (replaces : α → Prop) (s : State ι α) : Prop where
  todo : ∀ i, ∀ task ∈ s.todo i, ¬replaces task
  waiting : ∀ i task file, s.phase i = .waiting task file → ¬replaces task ∧ file = s.path
  inside : ∀ i task file replaced, s.phase i = .inside task file replaced →
    ¬replaces task ∧ replaced = false

omit [DecidableEq ι] in
theorem NoReplace.current (h : NoReplace replaces s) (e : Event ι) : Current s e := by
  cases e with
  | grant i =>
      exact ⟨fun task file hi => (h.waiting i task file hi).2,
        fun j task file replaced hj => (h.inside j task file replaced hj).2⟩
  | opens i | giveUp i | replace i | release i => exact trivial

theorem NoReplace.step (h : NoReplace replaces s) (hstep : Step replaces s e t) :
    NoReplace replaces t := by
  cases hstep with
  | @opens i task tasks hidle htodo =>
      have htasks : ∀ task' ∈ task :: tasks, ¬replaces task' := htodo ▸ h.todo i
      refine ⟨fun j task' htask' => ?_, fun j task' file' hj => ?_, fun j task' file' r hj => ?_⟩
      · change task' ∈ Function.update s.todo i tasks j at htask'
        rw [Function.update_apply] at htask'
        split at htask'
        · exact htasks task' (List.mem_cons_of_mem _ htask')
        · exact h.todo j task' htask'
      · rw [phase_move] at hj
        split at hj
        · cases hj
          exact ⟨htasks task List.mem_cons_self, rfl⟩
        · exact h.waiting j task' file' hj
      · exact h.inside j task' file' r (inside_of_move (by rintro _ _ _ ⟨⟩) hj)
  | @grant i task file hwaiting hfree =>
      refine ⟨h.todo, fun j task' file' hj => ?_, fun j task' file' r hj => ?_⟩ <;>
        rw [phase_move] at hj <;> split at hj
      · cases hj
      · exact h.waiting j task' file' hj
      · cases hj
        exact ⟨(h.waiting i task file hwaiting).1, rfl⟩
      · exact h.inside j task' file' r hj
  | @replace i task file hinside hreplaces =>
      exact absurd hreplaces (h.inside i task file false hinside).1
  | giveUp _ | release _ =>
      refine ⟨h.todo, fun j task' file' hj => ?_, fun j task' file' r hj => ?_⟩
      · rw [phase_move] at hj
        split at hj
        · cases hj
        · exact h.waiting j task' file' hj
      · exact h.inside j task' file' r (inside_of_move (by rintro _ _ _ ⟨⟩) hj)

/-- Only one client has anything to do. -/
def Alone (i : ι) (s : State ι α) : Prop := ∀ j, j ≠ i → s.todo j = [] ∧ s.phase j = .idle

theorem Alone.step (h : Alone i s) (hstep : Step replaces s e t) : Alone i t := by
  have hclient : e.client = i := by
    by_contra hne
    obtain ⟨htodo, hphase⟩ := h e.client hne
    exact hstep.busy.elim (absurd htodo) (absurd hphase)
  intro j hj
  obtain ⟨htodo, hphase⟩ := hstep.frame (hclient.symm ▸ hj)
  exact ⟨htodo.trans (h j hj).1, hphase.trans (h j hj).2⟩

omit [DecidableEq ι] in
theorem Alone.exclusive (h : Alone i s) : s.Exclusive := by
  have hself : ∀ j, s.Inside j → j = i := by
    rintro j ⟨file, task, replaced, hj⟩
    by_contra hne
    rw [(h j hne).2] at hj
    cases hj
  exact fun j k hj hk => (hself j hj).trans (hself k hk).symm

/-! ### Tasks that do not -/

/-- A client can enter its block where nobody holds the file the path names. -/
theorem reaches_inside {tasks : List α} {task : α} (hidle : s.phase i = .idle)
    (htodo : s.todo i = task :: tasks) (hfree : ∀ j, ¬s.Holds j s.path) :
    Reaches replaces s ({ s with todo := Function.update s.todo i tasks }.move i
      (.inside task s.path false)) := by
  let opened := { s with todo := Function.update s.todo i tasks }.move i (.waiting task s.path)
  have hopen : Step replaces s (.opens i) opened := .opens hidle htodo
  have hgrant : Step replaces opened (.grant i) (opened.move i (.inside task s.path false)) := by
    refine .grant (by rw [phase_move, if_pos rfl]) ?_
    rintro j ⟨task', replaced, hj⟩
    exact hfree j ⟨task', replaced, inside_of_move (by rintro _ _ _ ⟨⟩) hj⟩
  have hmove : opened.move i (.inside task s.path false) =
      { s with todo := Function.update s.todo i tasks }.move i (.inside task s.path false) := by
    simp only [opened, State.move, Function.update_idem]
  exact hmove ▸ .tail (.single ⟨_, hopen⟩) ⟨_, hgrant⟩

/-- Where nobody has anything open, a client can do its first task. -/
theorem reaches_turn {tasks : List α} {task : α} (hidle : ∀ j, s.phase j = .idle)
    (htodo : s.todo i = task :: tasks) :
    Reaches replaces s { s with todo := Function.update s.todo i tasks } := by
  have hfree : ∀ j, ¬s.Holds j s.path := by
    rintro j ⟨task', replaced, hj⟩
    rw [hidle j] at hj
    cases hj
  let entered := { s with todo := Function.update s.todo i tasks }.move i
    (.inside task s.path false)
  have hrelease : Step replaces entered (.release i) (entered.move i .idle) :=
    .release (by rw [phase_move, if_pos rfl])
  have hmove : entered.move i .idle = { s with todo := Function.update s.todo i tasks } := by
    have hphase : Function.update s.phase i .idle = s.phase :=
      Function.update_eq_self_iff.mpr (hidle i).symm
    simp only [entered, State.move, Function.update_idem, hphase]
  exact hmove ▸ (reaches_inside (hidle i) htodo hfree).tail ⟨_, hrelease⟩

/-- It can do all tasks before one. -/
theorem reaches_before {earlier later : List α} {task : α} (hidle : ∀ j, s.phase j = .idle)
    (htodo : s.todo i = earlier ++ task :: later) :
    ∃ t, Reaches replaces s t ∧ (∀ j, t.phase j = .idle) ∧ t.todo i = task :: later ∧
      ∀ j, j ≠ i → t.todo j = s.todo j := by
  induction earlier generalizing s with
  | nil => exact ⟨s, .refl, hidle, htodo, fun _ _ => rfl⟩
  | cons first earlier ih =>
      obtain ⟨t, hrun, hidle', htodo', hothers⟩ :=
        @ih { s with todo := Function.update s.todo i (earlier ++ task :: later) } hidle
          (Function.update_self i _ s.todo)
      exact ⟨t, (reaches_turn hidle htodo).trans hrun, hidle', htodo', fun j hj =>
        (hothers j hj).trans (Function.update_of_ne hj _ s.todo)⟩

/-- A client that replaces the file lets another one in. -/
theorem exists_both_inside {programs : ι → List α} (hij : j ≠ i) {task : α}
    (htask : task ∈ programs i) (hreplaces : replaces task) (hj : programs j ≠ []) :
    ∃ s, Reaches replaces (State.start programs) s ∧ s.Inside i ∧ s.Inside j := by
  obtain ⟨earlier, later, htasks⟩ := List.append_of_mem htask
  obtain ⟨other, others, hothers⟩ := List.exists_cons_of_ne_nil hj
  obtain ⟨s, hrun, hidle, htodo, hrest⟩ :=
    @reaches_before ι α _ replaces (State.start programs) i earlier later task (fun _ => rfl) htasks
  have hfree : ∀ k, ¬s.Holds k s.path := by
    rintro k ⟨task', replaced, hk⟩
    rw [hidle k] at hk
    cases hk
  let entered := { s with todo := Function.update s.todo i later }.move i
    (.inside task s.path false)
  let replaced := { entered with path := s.path + 1 }.move i (.inside task s.path true)
  have hreplace : Step replaces entered (.replace i) replaced :=
    .replace (by rw [phase_move, if_pos rfl]) hreplaces
  have hphase : replaced.phase i = .inside task s.path true := by rw [phase_move, if_pos rfl]
  have hothers' : ∀ k, k ≠ i → replaced.phase k = .idle := by
    intro k hk
    rw [phase_move, if_neg hk, phase_move, if_neg hk]
    exact hidle k
  -- the new file is held by nobody
  have hfree' : ∀ k, ¬replaced.Holds k replaced.path := by
    rintro k ⟨task', r, hk⟩
    rcases eq_or_ne k i with rfl | hne
    · have hpath : s.path = s.path + 1 := (Phase.inside.inj (hphase.symm.trans hk)).2.1
      omega
    · cases (hothers' k hne).symm.trans hk
  have htodo' : replaced.todo j = other :: others :=
    (Function.update_of_ne hij _ s.todo).trans ((hrest j hij).trans hothers)
  refine ⟨_, ((hrun.trans (reaches_inside (hidle i) htodo hfree)).tail ⟨_, hreplace⟩).trans
    (reaches_inside (hothers' j hij) htodo' hfree'), ⟨s.path, task, true, ?_⟩,
    ⟨s.path + 1, other, false, ?_⟩⟩
  · rw [phase_move, if_neg hij.symm]
    exact hphase
  · rw [phase_move, if_pos rfl]
    rfl

/-- **When the lock excludes in every run**: if a client may replace the file, no
other client has anything to do. -/
theorem exclusive_iff (programs : ι → List α) :
    (∀ s, Reaches replaces (State.start programs) s → s.Exclusive) ↔
      ∀ i, (∃ task ∈ programs i, replaces task) → ∀ j, j ≠ i → programs j = [] := by
  constructor
  · rintro h i ⟨task, htask, hreplaces⟩ j hne
    by_contra hj
    obtain ⟨s, hrun, hi, hj⟩ := exists_both_inside hne htask hreplaces hj
    exact hne (h s hrun j i hj hi)
  · intro h s hrun
    by_cases hex : ∃ i, ∃ task ∈ programs i, replaces task
    -- only one client has anything to do
    · obtain ⟨i, htask⟩ := hex
      have halone : Alone i s := by
        induction hrun with
        | refl => exact fun j hj => ⟨h i htask j hj, rfl⟩
        | tail _ hstep ih =>
            obtain ⟨e, hstep⟩ := hstep
            exact ih.step hstep
      exact halone.exclusive
    -- nobody replaces the file, so all locks are granted on it
    · have hstart : NoReplace replaces (State.start programs) :=
        ⟨fun i task htask hreplaces => hex ⟨i, task, htask, hreplaces⟩, nofun, nofun⟩
      have hcurrent : NoReplace replaces s ∧ ReachesCurrent replaces (State.start programs) s := by
        induction hrun with
        | refl => exact ⟨hstart, .refl⟩
        | tail _ hstep ih =>
            obtain ⟨e, hstep⟩ := hstep
            exact ⟨ih.1.step hstep, ih.2.tail ⟨e, hstep, ih.1.current e⟩⟩
      exact exclusive_of_current (guarded_start programs) hcurrent.2

end FileLock
