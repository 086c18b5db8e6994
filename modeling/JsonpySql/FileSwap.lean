/-
JsonpySql/FileSwap.lean

Writes to a file that is now and then replaced by a rewritten one.

Clients append to the file a path names, under its lock or without.  A swap reads
the file under the lock, opens a temporary file, which is truncated, fills it with
the rewritten content and renames it to the path.  The lock belongs to the file a
client has opened (`FileLock`), while the append goes to whatever the path names by
then, and the temporary file has one name for all clients.  So a client that has
waited on a file that was replaced is inside next to one that has opened the new
file.  What it appends between the read and the rename of a swap is lost, and what
it truncates before the rename of another swap is put under the path.

Which programs can lose a write is decided by `Meet`: a task and a swap of another
client, where the task takes no lock or another swap may come before.
-/
import Mathlib.Data.List.Infix
import Mathlib.Data.Nat.Notation
import Mathlib.Logic.Function.Basic
import Mathlib.Logic.Relation

namespace FileSwap

/-! ### Clients -/

/-- A task appends under the lock, appends without it, or swaps the file. -/
inductive Kind
  | append | bare | swap
deriving DecidableEq

/-- What tasks do to the content of a file: a write, what a swap makes of what it has
read, a truncated file, and what a file holds over which a content is written from
its start, where that makes sense. -/
structure Tasks (α σ : Type*) where
  kind : α → Kind
  write : α → σ → σ
  rewrite : σ → σ
  blank : σ
  overlay : σ → σ → Option σ
  overlay_blank : ∀ new, overlay new blank = some new

/-- A file, and the writes it shows. -/
structure File (α σ : Type*) where
  content : σ
  shown : List α

/-- Where a client stands: it has nothing open, it waits for the lock of a file, it
is inside its block, it has read the file for a swap, it has opened the temporary
file or filled it, each with what it is going to put under the path, or it has
done its task. -/
inductive Phase (α σ : Type*)
  | idle
  | waiting (task : α) (file : ℕ)
  | inside (task : α) (file : ℕ)
  | read (task : α) (file : ℕ) (copy : File α σ)
  | filling (task : α) (file : ℕ) (copy : File α σ) (temp : ℕ)
  | filled (task : α) (file : ℕ) (copy : File α σ)
  | done (task : α) (file : ℕ)

/-- The files, the one the path names and the one the temporary name stands for, how
many there have been, the tasks every client has left and where it stands, and the
writes that were made. -/
structure State (ι α σ : Type*) where
  files : ℕ → File α σ
  path : ℕ
  temp : Option ℕ
  created : ℕ
  todo : ι → List α
  phase : ι → Phase α σ
  log : List α

variable {ι α σ : Type*} [DecidableEq ι]

namespace Phase

/-- The file the client has opened for its lock. -/
def file : Phase α σ → Option ℕ
  | .waiting _ file | .inside _ file | .read _ file _ | .filling _ file _ _ | .filled _ file _
  | .done _ file => some file
  | .idle => none

/-- The file whose lock the client has. -/
def held : Phase α σ → Option ℕ
  | .inside _ file | .read _ file _ | .filling _ file _ _ | .filled _ file _ | .done _ file =>
      some file
  | .idle | .waiting _ _ => none

/-- The task the client has begun and not done. -/
def current : Phase α σ → Option α
  | .waiting task _ | .inside task _ | .read task _ _ | .filling task _ _ _ | .filled task _ _ =>
      some task
  | .idle | .done _ _ => none

/-- What the client is going to put under the path. -/
def copy : Phase α σ → Option (File α σ)
  | .read _ _ copy | .filling _ _ copy _ | .filled _ _ copy => some copy
  | .idle | .waiting _ _ | .inside _ _ | .done _ _ => none

end Phase

namespace State

/-- Nobody has begun. -/
def start (content : σ) (programs : ι → List α) : State ι α σ :=
  ⟨fun _ => ⟨content, []⟩, 0, none, 1, programs, fun _ => .idle, []⟩

def move (s : State ι α σ) (i : ι) (p : Phase α σ) : State ι α σ :=
  { s with phase := Function.update s.phase i p }

def Holds (s : State ι α σ) (i : ι) (file : ℕ) : Prop := (s.phase i).held = some file

/-- The tasks a client has not done. -/
def ahead (s : State ι α σ) (i : ι) : List α := (s.phase i).current.toList ++ s.todo i

/-- The file the path names. -/
def file (s : State ι α σ) : File α σ := s.files s.path

/-- A write reaches the file the path names. -/
def put (s : State ι α σ) (T : Tasks α σ) (task : α) : State ι α σ :=
  { s with
    files := Function.update s.files s.path
      ⟨T.write task s.file.content, s.file.shown ++ [task]⟩
    log := s.log ++ [task] }

/-- What opening the temporary file opens: the file there is, or a new one. -/
def target (s : State ι α σ) : ℕ := s.temp.getD s.created

/-- The temporary file is opened, and truncated. -/
def openTemp (s : State ι α σ) (T : Tasks α σ) : State ι α σ :=
  { s with
    files := Function.update s.files s.target ⟨T.blank, []⟩
    temp := some s.target
    created := max s.created (s.target + 1) }

end State

section Steps

variable (T : Tasks α σ)

/-- One step of one client.  A lock is granted on a file that nobody holds, a wait
may end without it, and a block may end at any time, by an error if need be, which
in a swap may remove the temporary file first. -/
inductive Step : State ι α σ → State ι α σ → Prop
  | opens {s i task tasks} (hidle : s.phase i = .idle) (htodo : s.todo i = task :: tasks)
      (hkind : T.kind task ≠ .bare) :
      Step s ({ s with todo := Function.update s.todo i tasks }.move i (.waiting task s.path))
  | giveUp {s i task file} (hwaiting : s.phase i = .waiting task file) : Step s (s.move i .idle)
  | grant {s i task file} (hwaiting : s.phase i = .waiting task file)
      (hfree : ∀ j, ¬s.Holds j file) : Step s (s.move i (.inside task file))
  | append {s i task file} (hinside : s.phase i = .inside task file)
      (hkind : T.kind task = .append) : Step s ((s.put T task).move i (.done task file))
  | bare {s i task tasks} (hidle : s.phase i = .idle) (htodo : s.todo i = task :: tasks)
      (hkind : T.kind task = .bare) :
      Step s { s.put T task with todo := Function.update s.todo i tasks }
  | read {s i task file} (hinside : s.phase i = .inside task file) (hkind : T.kind task = .swap) :
      Step s (s.move i (.read task file ⟨T.rewrite s.file.content, s.file.shown⟩))
  | openTemp {s i task file copy} (hread : s.phase i = .read task file copy) :
      Step s ((s.openTemp T).move i (.filling task file copy s.target))
  | fill {s i task file copy temp content} (hfilling : s.phase i = .filling task file copy temp)
      (hoverlay : T.overlay copy.content (s.files temp).content = some content) :
      Step s ({ s with files := Function.update s.files temp ⟨content, copy.shown⟩ }.move i
        (.filled task file copy))
  | rename {s i task file copy temp} (hfilled : s.phase i = .filled task file copy)
      (htemp : s.temp = some temp) :
      Step s ({ s with path := temp, temp := none }.move i (.done task file))
  | unlink {s i task file copy} (hholds : s.Holds i file)
      (hcurrent : (s.phase i).current = some task) (hcopy : (s.phase i).copy = some copy) :
      Step s ({ s with temp := none }.move i (.done task file))
  | release {s i file} (hholds : s.Holds i file) : Step s (s.move i .idle)

/-- A run of any number of steps. -/
def Reaches : State ι α σ → State ι α σ → Prop := Relation.ReflTransGen (Step T)

/-- A task of one client and a swap of another one, where the task takes no lock, or
another swap may be done before both: by one of the two clients before its task, or
by a third one. -/
def Meet (programs : ι → List α) (w k : α) : Prop :=
  ∃ i j earlier later earlier' later', i ≠ j ∧ programs i = earlier ++ w :: later ∧
    programs j = earlier' ++ k :: later' ∧ T.kind k = .swap ∧
    (T.kind w = .bare ∨ (∃ t ∈ earlier, T.kind t = .swap) ∨ (∃ t ∈ earlier', T.kind t = .swap) ∨
      ∃ l, l ≠ i ∧ l ≠ j ∧ ∃ t ∈ programs l, T.kind t = .swap)

/-- A write and a swap meet. -/
def WriteClash (programs : ι → List α) : Prop := ∃ w k, T.kind w ≠ .swap ∧ Meet T programs w k

/-- Two swaps meet. -/
def SwapClash (programs : ι → List α) : Prop := ∃ w k, T.kind w = .swap ∧ Meet T programs w k

end Steps

variable {T : Tasks α σ} {programs : ι → List α} {s t : State ι α σ} {i j : ι}

theorem phase_move (s : State ι α σ) (i j : ι) (p : Phase α σ) :
    (s.move i p).phase j = if j = i then p else s.phase j :=
  Function.update_apply s.phase i p j

theorem holds_move {file : ℕ} {p : Phase α σ} :
    (s.move i p).Holds j file ↔ if j = i then p.held = some file else s.Holds j file := by
  rw [State.Holds, phase_move]
  split
  · rfl
  · rfl

theorem ahead_move (s : State ι α σ) (i j : ι) (p : Phase α σ) : (s.move i p).ahead j =
    if j = i then p.current.toList ++ s.todo i else s.ahead j := by
  rw [State.ahead, phase_move]
  split
  · next h =>
      subst h
      rfl
  · rfl

/-- Who moves to where it has no copy leaves the copies of the others. -/
theorem copy_of_move {p : Phase α σ} {copy : File α σ} (hp : p.copy = none)
    (h : ((s.move i p).phase j).copy = some copy) : j ≠ i ∧ (s.phase j).copy = some copy := by
  rw [phase_move] at h
  split at h
  · rw [hp] at h
    cases h
  · next hj => exact ⟨hj, h⟩

omit [DecidableEq ι] in
theorem file_of_held {p : Phase α σ} {file : ℕ} (h : p.held = some file) : p.file = some file := by
  cases p with
  | idle => cases h
  | waiting task file' => cases h
  | inside _ _ | read _ _ _ | filling _ _ _ _ | filled _ _ _ | done _ _ => exact h

/-- Who has a copy holds a file. -/
theorem held_of_copy {p : Phase α σ} {copy : File α σ} (h : p.copy = some copy) :
    ∃ file, p.held = some file := by
  cases p with
  | idle => cases h
  | waiting _ _ => cases h
  | inside _ _ => cases h
  | done _ _ => cases h
  | read _ file _ | filling _ file _ _ | filled _ file _ => exact ⟨file, rfl⟩

/-! ### What has been done -/

/-- A client that moves on with its task, or is done with it. -/
theorem ahead_move_suffix {p : Phase α σ} (h : p.current = none ∨ p.current = (s.phase i).current)
    (l : ι) : (s.move i p).ahead l <:+ s.ahead l := by
  rw [ahead_move]
  split
  · next hl =>
      subst hl
      rw [State.ahead]
      rcases h with h | h
      · rw [h]
        exact List.suffix_append _ _
      · rw [h]
  · exact List.suffix_rfl

/-- **Tasks are done in order**: what is ahead of a client after a step is a part of
what was ahead of it. -/
theorem Step.ahead (h : Step T s t) (l : ι) : t.ahead l <:+ s.ahead l := by
  cases h with
  | @opens i task tasks hidle htodo hkind =>
      rw [ahead_move]
      split
      · next hl =>
          subst hl
          show [task] ++ Function.update s.todo l tasks l <:+ (s.phase l).current.toList ++ s.todo l
          rw [Function.update_self, hidle, htodo]
          exact List.suffix_rfl
      · next hl =>
          show (s.phase l).current.toList ++ Function.update s.todo i tasks l <:+ _
          rw [Function.update_of_ne hl]
          exact List.suffix_rfl
  | @bare i task tasks hidle htodo hkind =>
      show (s.phase l).current.toList ++ Function.update s.todo i tasks l <:+
        (s.phase l).current.toList ++ s.todo l
      rw [Function.update_apply]
      split
      · next hl =>
          subst hl
          rw [hidle, htodo]
          exact List.suffix_cons task tasks
      · exact List.suffix_rfl
  | giveUp _ | release _ | append _ _ | rename _ _ | unlink _ _ _ =>
      exact ahead_move_suffix (Or.inl rfl) l
  | grant hphase _ | read hphase _ | openTemp hphase | fill hphase _ =>
      apply ahead_move_suffix
      exact Or.inr (congrArg Phase.current hphase).symm

omit [DecidableEq ι] in
/-- What is passed stays passed. -/
theorem exists_passed (hahead : t.ahead i <:+ s.ahead i) {passed : List α}
    (h : passed ++ s.ahead i = programs i) :
    ∃ more, (passed ++ more) ++ t.ahead i = programs i := by
  obtain ⟨more, hmore⟩ := hahead
  refine ⟨more, ?_⟩
  rw [List.append_assoc, hmore, h]

omit [DecidableEq ι] in
theorem ahead_of_current {task : α} (h : (s.phase i).current = some task) :
    s.ahead i = task :: s.todo i := by
  rw [State.ahead, h]
  rfl

/-! ### Who is inside -/

/-- Files are opened before they are replaced, a file is held by one client, who has
a copy is swapping, and the temporary file is newer than the one under the path. -/
structure Locked (T : Tasks α σ) (s : State ι α σ) : Prop where
  opened : ∀ i file, (s.phase i).file = some file → file ≤ s.path
  one : ∀ i j file, s.Holds i file → s.Holds j file → i = j
  swap : ∀ i copy, (s.phase i).copy = some copy →
    ∃ task, (s.phase i).current = some task ∧ T.kind task = .swap
  created : s.path < s.created
  temp : ∀ temp, s.temp = some temp → s.path < temp ∧ temp < s.created

omit [DecidableEq ι] in
theorem locked_start (content : σ) (programs : ι → List α) :
    Locked T (State.start content programs) where
  opened := nofun
  one := nofun
  swap := nofun
  created := Nat.one_pos
  temp := nofun

omit [DecidableEq ι] in
theorem Locked.kind (h : Locked T s) {task : α} {copy : File α σ}
    (hcurrent : (s.phase i).current = some task) (hcopy : (s.phase i).copy = some copy) :
    T.kind task = .swap := by
  obtain ⟨task', hcurrent', hkind⟩ := h.swap i copy hcopy
  rwa [Option.some.inj (hcurrent.symm.trans hcurrent')]

omit [DecidableEq ι] in
theorem Locked.lt_target (h : Locked T s) : s.path < s.target := by
  unfold State.target
  cases htemp : s.temp with
  | none => exact h.created
  | some temp => exact (h.temp temp htemp).1

omit [DecidableEq ι] in
/-- The same clients inside, and no older a file under the path. -/
theorem Locked.frame (h : Locked T s) (hphase : t.phase = s.phase) (hpath : s.path ≤ t.path)
    (hcreated : t.path < t.created)
    (htemp : ∀ temp, t.temp = some temp → t.path < temp ∧ temp < t.created) : Locked T t where
  opened i file hi := (h.opened i file (hphase ▸ hi)).trans hpath
  one i j file hi hj := h.one i j file (show (s.phase i).held = _ from hphase ▸ hi)
    (show (s.phase j).held = _ from hphase ▸ hj)
  swap i copy hi := hphase ▸ h.swap i copy (hphase ▸ hi)
  created := hcreated
  temp := htemp

/-- A client moves to where it has the lock of a file that nobody else has. -/
theorem Locked.move (h : Locked T s) {p : Phase α σ}
    (hopened : ∀ file, p.file = some file → file ≤ s.path)
    (hheld : ∀ file, p.held = some file → ∀ j, s.Holds j file → j = i)
    (hswap : ∀ copy, p.copy = some copy → ∃ task, p.current = some task ∧ T.kind task = .swap) :
    Locked T (s.move i p) where
  opened j file hj := by
    rw [phase_move] at hj
    split at hj
    · exact hopened file hj
    · exact h.opened j file hj
  one j k file hj hk := by
    rw [holds_move] at hj hk
    split at hj <;> split at hk
    · next hji hki => rw [hji, hki]
    · next hji hki => exact hji.trans (hheld file hj k hk).symm
    · next hji hki => exact (hheld file hk j hj).trans hki.symm
    · exact h.one j k file hj hk
  swap j copy hj := by
    rw [phase_move] at hj ⊢
    split at hj
    · next hji =>
        rw [if_pos hji]
        exact hswap copy hj
    · next hji =>
        rw [if_neg hji]
        exact h.swap j copy hj
  created := h.created
  temp := h.temp

/-- A client that keeps the lock it has. -/
theorem Locked.keep (h : Locked T s) {p : Phase α σ} {file : ℕ} (hi : s.Holds i file)
    (hp : p.file = some file) (hheld : p.held = some file)
    (hswap : ∀ copy, p.copy = some copy → ∃ task, p.current = some task ∧ T.kind task = .swap) :
    Locked T (s.move i p) := by
  apply h.move
  · intro file' hfile'
    obtain rfl : file = file' := Option.some.inj (hp.symm.trans hfile')
    exact h.opened i file (file_of_held hi)
  · intro file' hfile' j hj
    obtain rfl : file = file' := Option.some.inj (hheld.symm.trans hfile')
    exact h.one j i file hj hi
  · exact hswap

/-- A client that closes its file. -/
theorem Locked.leave (h : Locked T s) (i : ι) : Locked T (s.move i .idle) := by
  apply h.move
  · rintro file' ⟨⟩
  · rintro file' ⟨⟩
  · rintro copy ⟨⟩

/-- **A file is held by one client** in every run. -/
theorem Locked.step (h : Locked T s) (hstep : Step T s t) : Locked T t := by
  cases hstep with
  | @opens i task tasks hidle htodo hkind =>
      have hs : Locked T { s with todo := Function.update s.todo i tasks } :=
        h.frame rfl le_rfl h.created h.temp
      apply hs.move
      · rintro file' ⟨⟩
        exact le_rfl
      · rintro file' ⟨⟩
      · rintro copy ⟨⟩
  | giveUp _ | release _ => exact h.leave _
  | @grant i task file hwaiting hfree =>
      apply h.move
      · rintro file' ⟨⟩
        exact h.opened i file (congrArg Phase.file hwaiting)
      · rintro file' ⟨⟩
        exact fun j hj => absurd hj (hfree j)
      · rintro copy ⟨⟩
  | @append i task file hinside hkind =>
      have hs : Locked T (s.put T task) := h.frame rfl le_rfl h.created h.temp
      apply hs.keep (congrArg Phase.held hinside) rfl rfl
      rintro copy ⟨⟩
  | bare _ _ _ => exact h.frame rfl le_rfl h.created h.temp
  | @read i task file hinside hkind =>
      apply h.keep (congrArg Phase.held hinside) rfl rfl
      exact fun _ _ => ⟨task, rfl, hkind⟩
  | @openTemp i task file copy hread =>
      have hlt := h.lt_target
      have hs : Locked T (s.openTemp T) := by
        refine h.frame (t := s.openTemp T) rfl le_rfl ?_ ?_
        · exact h.created.trans_le (Nat.le_max_left _ _)
        · rintro temp ⟨⟩
          exact ⟨hlt, (Nat.lt_succ_self _).trans_le (Nat.le_max_right _ _)⟩
      apply hs.keep (congrArg Phase.held hread) rfl rfl
      exact fun _ _ => ⟨task, rfl,
        h.kind (congrArg Phase.current hread) (congrArg Phase.copy hread)⟩
  | @fill i task file copy temp content hfilling hoverlay =>
      have hs : Locked T { s with files := Function.update s.files temp ⟨content, copy.shown⟩ } :=
        h.frame rfl le_rfl h.created h.temp
      apply hs.keep (congrArg Phase.held hfilling) rfl rfl
      exact fun _ _ => ⟨task, rfl,
        h.kind (congrArg Phase.current hfilling) (congrArg Phase.copy hfilling)⟩
  | @rename i task file copy temp hfilled htemp =>
      obtain ⟨hlt, hcreated⟩ := h.temp temp htemp
      have hs : Locked T { s with path := temp, temp := none } :=
        h.frame rfl hlt.le hcreated nofun
      apply hs.keep (congrArg Phase.held hfilled) rfl rfl
      rintro copy ⟨⟩
  | @unlink i task file copy hholds hcurrent hcopy =>
      have hs : Locked T { s with temp := none } := h.frame rfl le_rfl h.created nofun
      apply hs.keep hholds rfl rfl
      rintro copy ⟨⟩

theorem Locked.reaches (h : Locked T s) (hrun : Reaches T s t) : Locked T t := by
  induction hrun with
  | refl => exact h
  | tail _ hstep ih => exact ih.step hstep

/-- Tasks are done in order, and a file that has been replaced was replaced by a
swap that somebody has passed. -/
structure Progress (T : Tasks α σ) (programs : ι → List α) (s : State ι α σ) : Prop where
  ahead : ∀ l, s.ahead l <:+ programs l
  replaced : s.path ≠ 0 → ∃ l passed, passed ++ s.ahead l = programs l ∧
    ∃ t ∈ passed, T.kind t = .swap

omit [DecidableEq ι] in
theorem progress_start (content : σ) (programs : ι → List α) :
    Progress T programs (State.start content programs) where
  ahead _ := List.suffix_rfl
  replaced hpath := absurd rfl hpath

theorem Progress.step (h : Progress T programs s) (hlocked : Locked T s) (hstep : Step T s t) :
    Progress T programs t where
  ahead l := (hstep.ahead l).trans (h.ahead l)
  replaced hpath := by
    by_cases hs : s.path = 0
    · -- this step has replaced the file
      cases hstep with
      | @rename i task file copy temp hfilled htemp =>
          obtain ⟨passed, hpassed⟩ := h.ahead i
          have hcurrent : (s.phase i).current = some task := congrArg Phase.current hfilled
          have hkind : T.kind task = .swap := hlocked.kind hcurrent (congrArg Phase.copy hfilled)
          refine ⟨i, passed ++ [task], ?_, task,
            List.mem_append_right _ (List.mem_singleton.mpr rfl), hkind⟩
          rw [ahead_move, if_pos rfl, ← hpassed, ahead_of_current hcurrent, List.append_assoc]
          rfl
      | opens _ _ _ | giveUp _ | grant _ _ | append _ _ | bare _ _ _ | read _ _ | openTemp _
      | fill _ _ | unlink _ _ _ | release _ => exact absurd hs hpath
    · obtain ⟨l, passed, hpassed, k, hk, hkind⟩ := h.replaced hs
      obtain ⟨more, hmore⟩ := exists_passed (hstep.ahead l) hpassed
      exact ⟨l, passed ++ more, hmore, k, List.mem_append_left _ hk, hkind⟩


/-! ### Without a clash -/

omit [DecidableEq ι] in
/-- **Who meets a swap**: a client at a task without the lock, or inside, next to one
that has a copy. -/
theorem meet_of_copy (hprogress : Progress T programs s) (hlocked : Locked T s) {w : α}
    {tasks : List α} {copy : File α σ} (hij : i ≠ j) (hahead : s.ahead i = w :: tasks)
    (hw : T.kind w = .bare ∨ ∃ file, s.Holds i file) (hj : (s.phase j).copy = some copy) :
    ∃ k, Meet T programs w k := by
  obtain ⟨k, hcurrent, hkind⟩ := hlocked.swap j copy hj
  have hahead' : s.ahead j = k :: s.todo j := ahead_of_current hcurrent
  obtain ⟨earlier, hearlier⟩ := hprogress.ahead i
  obtain ⟨earlier', hearlier'⟩ := hprogress.ahead j
  rw [hahead] at hearlier
  rw [hahead'] at hearlier'
  refine ⟨k, ?_⟩
  rcases hw with hbare | ⟨file, hi⟩
  · exact ⟨i, j, earlier, _, earlier', _, hij, hearlier.symm, hearlier'.symm, hkind, Or.inl hbare⟩
  -- they hold different files, so a swap is past
  obtain ⟨file', hj'⟩ := held_of_copy hj
  have hpath : s.path ≠ 0 := by
    intro hzero
    have hfile : file = 0 := Nat.le_zero.mp (hzero ▸ hlocked.opened i file (file_of_held hi))
    have hfile' : file' = 0 := Nat.le_zero.mp (hzero ▸ hlocked.opened j file' (file_of_held hj'))
    exact hij (hlocked.one i j 0 (hfile ▸ hi) (hfile' ▸ hj'))
  obtain ⟨l, passed, hpassed, t, ht, htkind⟩ := hprogress.replaced hpath
  rcases eq_or_ne l i with rfl | hli
  · rw [hahead] at hpassed
    exact ⟨l, j, passed, _, earlier', _, hij, hpassed.symm, hearlier'.symm, hkind,
      Or.inr (Or.inl ⟨t, ht, htkind⟩)⟩
  rcases eq_or_ne l j with rfl | hlj
  · rw [hahead'] at hpassed
    exact ⟨i, l, earlier, _, passed, _, hij, hearlier.symm, hpassed.symm, hkind,
      Or.inr (Or.inr (Or.inl ⟨t, ht, htkind⟩))⟩
  · have hmem : t ∈ programs l := hpassed ▸ List.mem_append_left _ ht
    exact ⟨i, j, earlier, _, earlier', _, hij, hearlier.symm, hearlier'.symm, hkind,
      Or.inr (Or.inr (Or.inr ⟨l, hli, hlj, t, hmem, htkind⟩))⟩

/-- One client at most has a copy, and the temporary file is its own. -/
structure Apart (T : Tasks α σ) (s : State ι α σ) : Prop where
  one : ∀ i j copy copy', (s.phase i).copy = some copy → (s.phase j).copy = some copy' → i = j
  filling : ∀ i task file copy temp, s.phase i = .filling task file copy temp →
    s.temp = some temp ∧ (s.files temp).content = T.blank
  filled : ∀ i task file copy, s.phase i = .filled task file copy →
    ∃ temp, s.temp = some temp ∧ s.files temp = copy

namespace Apart

omit [DecidableEq ι] in
theorem start (content : σ) (programs : ι → List α) : Apart T (State.start content programs) where
  one := nofun
  filling := nofun
  filled := nofun

omit [DecidableEq ι] in
/-- The clients that have a copy stay where they are, and so does the temporary file. -/
theorem frame (h : Apart T s) (htemp : t.temp = s.temp)
    (hphase : ∀ j copy, (t.phase j).copy = some copy → t.phase j = s.phase j)
    (hfiles : ∀ temp, s.temp = some temp → t.files temp = s.files temp) : Apart T t where
  one i j copy copy' hi hj := h.one i j copy copy' (hphase i copy hi ▸ hi) (hphase j copy' hj ▸ hj)
  filling i task file copy temp hi := by
    have hi' : s.phase i = .filling task file copy temp :=
      (hphase i copy (congrArg Phase.copy hi)).symm.trans hi
    obtain ⟨hs, hblank⟩ := h.filling i task file copy temp hi'
    rw [htemp, hfiles temp hs]
    exact ⟨hs, hblank⟩
  filled i task file copy hi := by
    have hi' : s.phase i = .filled task file copy :=
      (hphase i copy (congrArg Phase.copy hi)).symm.trans hi
    obtain ⟨temp, hs, hcopy⟩ := h.filled i task file copy hi'
    exact ⟨temp, htemp.trans hs, (hfiles temp hs).trans hcopy⟩

/-- A client moves to where it has no copy. -/
theorem move (h : Apart T s) {p : Phase α σ} (hp : p.copy = none) (htemp : t.temp = s.temp)
    (hphase : t.phase = (s.move i p).phase)
    (hfiles : ∀ temp, s.temp = some temp → t.files temp = s.files temp) : Apart T t := by
  refine h.frame htemp (fun j copy hj => ?_) hfiles
  rw [hphase] at hj ⊢
  rw [phase_move, if_neg (copy_of_move hp hj).1]

omit [DecidableEq ι] in
/-- Nobody else has a copy. -/
theorem single (hothers : ∀ j copy, (t.phase j).copy = some copy → j = i)
    (hfilling : ∀ task file copy temp, t.phase i = .filling task file copy temp →
      t.temp = some temp ∧ (t.files temp).content = T.blank)
    (hfilled : ∀ task file copy, t.phase i = .filled task file copy →
      ∃ temp, t.temp = some temp ∧ t.files temp = copy) : Apart T t where
  one j k copy copy' hj hk := (hothers j copy hj).trans (hothers k copy' hk).symm
  filling j task file copy temp hj := by
    obtain rfl := hothers j copy (congrArg Phase.copy hj)
    exact hfilling task file copy temp hj
  filled j task file copy hj := by
    obtain rfl := hothers j copy (congrArg Phase.copy hj)
    exact hfilled task file copy hj

theorem others (h : Apart T s) {copy : File α σ} (hi : (s.phase i).copy = some copy)
    {p : Phase α σ} (j : ι) (copy' : File α σ)
    (hj : ((s.move i p).phase j).copy = some copy') : j = i := by
  by_cases hji : j = i
  · exact hji
  · rw [phase_move, if_neg hji] at hj
    exact h.one j i copy' copy hj hi

/-- The client that has a copy moves to where it has none. -/
theorem leave (h : Apart T s) {copy : File α σ} (hi : (s.phase i).copy = some copy)
    {p : Phase α σ} (hp : p.copy = none) (hphase : t.phase = (s.move i p).phase) : Apart T t := by
  have hnone : ∀ j copy', (t.phase j).copy ≠ some copy' := by
    intro j copy' hj
    rw [hphase] at hj
    obtain ⟨hji, hj'⟩ := copy_of_move hp hj
    exact hji (h.one j i copy' copy hj' hi)
  exact ⟨fun j _ copy' _ hj _ => absurd hj (hnone j copy'),
    fun j _ _ copy' _ hj => absurd (congrArg Phase.copy hj) (hnone j copy'),
    fun j _ _ copy' hj => absurd (congrArg Phase.copy hj) (hnone j copy')⟩

/-- **The temporary file has one owner** in the runs of programs whose swaps do not
meet. -/
theorem step (h : Apart T s) (hstep : Step T s t) (hprogress : Progress T programs s)
    (hlocked : Locked T s) (hswaps : ¬SwapClash T programs) : Apart T t := by
  have hother : ∀ {file : File α σ} temp, s.temp = some temp →
      Function.update s.files s.path file temp = s.files temp :=
    fun temp htemp => Function.update_of_ne (hlocked.temp temp htemp).1.ne' _ _
  cases hstep with
  | opens _ _ _ | giveUp _ | grant _ _ | release _ =>
      exact h.move rfl rfl rfl fun _ _ => rfl
  | append _ _ => exact h.move rfl rfl rfl hother
  | bare _ _ _ => exact h.frame rfl (fun _ _ _ => rfl) hother
  | @read i task file hinside hkind =>
      apply single (i := i)
      · intro j copy hj
        by_contra hji
        rw [phase_move, if_neg hji] at hj
        have hcurrent : (s.phase i).current = some task := congrArg Phase.current hinside
        obtain ⟨k, hmeet⟩ := meet_of_copy hprogress hlocked (Ne.symm hji)
          (ahead_of_current hcurrent) (Or.inr ⟨file, congrArg Phase.held hinside⟩) hj
        exact hswaps ⟨task, k, hkind, hmeet⟩
      · intro task' file' copy temp hi
        rw [phase_move, if_pos rfl] at hi
        cases hi
      · intro task' file' copy hi
        rw [phase_move, if_pos rfl] at hi
        cases hi
  | @openTemp i task file copy hread =>
      apply single (i := i)
      · exact h.others (congrArg Phase.copy hread)
      · intro task' file' copy' temp hi
        rw [phase_move, if_pos rfl] at hi
        cases hi
        refine ⟨rfl, ?_⟩
        show (Function.update s.files s.target ⟨T.blank, []⟩ s.target).content = T.blank
        rw [Function.update_self]
      · intro task' file' copy' hi
        rw [phase_move, if_pos rfl] at hi
        cases hi
  | @fill i task file copy temp content hfilling hoverlay =>
      obtain ⟨htemp, hblank⟩ := h.filling i task file copy temp hfilling
      apply single (i := i)
      · exact h.others (congrArg Phase.copy hfilling)
      · intro task' file' copy' temp' hi
        rw [phase_move, if_pos rfl] at hi
        cases hi
      · intro task' file' copy' hi
        rw [phase_move, if_pos rfl] at hi
        cases hi
        refine ⟨temp, htemp, ?_⟩
        -- it is filled from its start
        rw [hblank, T.overlay_blank] at hoverlay
        cases hoverlay
        exact Function.update_self _ _ _
  | rename hfilled _ => exact h.leave (congrArg Phase.copy hfilled) rfl rfl
  | unlink _ _ hcopy => exact h.leave hcopy rfl rfl

end Apart

/-- What a step can do to the file under the path: nothing, a write, or a swap. -/
theorem Step.file_cases (hstep : Step T s t) (hlocked : Locked T s) (hapart : Apart T s) :
    (t.file = s.file ∧ t.log = s.log) ∨
      (∃ i w tasks, s.ahead i = w :: tasks ∧ (T.kind w = .bare ∨ ∃ file, s.Holds i file) ∧
        T.kind w ≠ .swap ∧ (s.phase i).copy = none ∧
        t.file = ⟨T.write w s.file.content, s.file.shown ++ [w]⟩ ∧ t.log = s.log ++ [w]) ∨
      ∃ i copy, (s.phase i).copy = some copy ∧ t.file = copy ∧ t.log = s.log := by
  cases hstep with
  | opens _ _ _ | giveUp _ | grant _ _ | read _ _ | unlink _ _ _ | release _ =>
      exact Or.inl ⟨rfl, rfl⟩
  | @append i w file hinside hkind =>
      refine Or.inr (Or.inl ⟨i, w, s.todo i, ahead_of_current (congrArg Phase.current hinside),
        Or.inr ⟨file, congrArg Phase.held hinside⟩, hkind.trans_ne nofun,
        congrArg Phase.copy hinside, ?_, rfl⟩)
      exact Function.update_self _ _ _
  | @bare i w tasks hidle htodo hkind =>
      refine Or.inr (Or.inl ⟨i, w, tasks, ?_, Or.inl hkind, hkind.trans_ne nofun,
        congrArg Phase.copy hidle, ?_, rfl⟩)
      · rw [State.ahead, hidle, htodo]
        rfl
      · exact Function.update_self _ _ _
  | openTemp _ => exact Or.inl ⟨Function.update_of_ne hlocked.lt_target.ne _ _, rfl⟩
  | @fill i task file copy temp content hfilling hoverlay =>
      have htemp := (hapart.filling i task file copy temp hfilling).1
      exact Or.inl ⟨Function.update_of_ne (hlocked.temp temp htemp).1.ne _ _, rfl⟩
  | @rename i task file copy temp hfilled htemp =>
      obtain ⟨temp', htemp', hcopy⟩ := hapart.filled i task file copy hfilled
      obtain rfl : temp = temp' := Option.some.inj (htemp.symm.trans htemp')
      exact Or.inr (Or.inr ⟨i, copy, congrArg Phase.copy hfilled, hcopy, rfl⟩)

/-- A copy is one there was, or has just been read. -/
theorem Step.copy_cases (hstep : Step T s t) {copy : File α σ}
    (hj : (t.phase j).copy = some copy) : (s.phase j).copy = some copy ∨
      (copy = ⟨T.rewrite s.file.content, s.file.shown⟩ ∧ t.file = s.file) := by
  cases hstep with
  | opens _ _ _ | giveUp _ | grant _ _ | append _ _ | rename _ _ | unlink _ _ _ | release _ =>
      exact Or.inl (copy_of_move rfl hj).2
  | bare _ _ _ => exact Or.inl hj
  | @read i task file hinside hkind =>
      rw [phase_move] at hj
      split at hj
      · exact Or.inr ⟨(Option.some.inj hj).symm, rfl⟩
      · exact Or.inl hj
  | openTemp hphase | fill hphase _ =>
      rw [phase_move] at hj
      split at hj
      · next hji =>
          subst hji
          exact Or.inl ((congrArg Phase.copy hphase).trans hj)
      · exact Or.inl hj

/-- What has been read for a swap is still what the file shows, and the file shows
every write. -/
structure Fresh (s : State ι α σ) : Prop where
  copies : ∀ i copy, (s.phase i).copy = some copy → copy.shown = s.file.shown
  kept : s.file.shown = s.log

/-- **No write is lost in a step** of programs that do not clash. -/
theorem Fresh.step (h : Fresh s) (hstep : Step T s t) (hprogress : Progress T programs s)
    (hlocked : Locked T s) (hapart : Apart T s) (hwrites : ¬WriteClash T programs) : Fresh t := by
  rcases hstep.file_cases hlocked hapart with ⟨hfile, hlog⟩ |
      ⟨i, w, tasks, hahead, hw, hkind, hcopy, hfile, hlog⟩ | ⟨i, copy, hcopy, hfile, hlog⟩
  · refine ⟨fun j copy hj => ?_, by rw [hfile, hlog, h.kept]⟩
    rw [hfile]
    rcases hstep.copy_cases hj with hold | ⟨rfl, -⟩
    · exact h.copies j copy hold
    · rfl
  · refine ⟨fun j copy hj => ?_, by rw [hfile, hlog, h.kept]⟩
    rcases hstep.copy_cases hj with hold | ⟨rfl, hsame⟩
    · have hij : i ≠ j := by
        rintro rfl
        rw [hcopy] at hold
        cases hold
      obtain ⟨k, hmeet⟩ := meet_of_copy hprogress hlocked hij hahead hw hold
      exact absurd ⟨w, k, hkind, hmeet⟩ hwrites
    · rw [hsame]
  · have hshown : copy.shown = s.file.shown := h.copies i copy hcopy
    refine ⟨fun j copy' hj => ?_, by rw [hfile, hlog, hshown, h.kept]⟩
    rw [hfile, hshown]
    rcases hstep.copy_cases hj with hold | ⟨rfl, -⟩
    · exact h.copies j copy' hold
    · rfl

/-- The invariants of runs of programs whose swaps do not meet. -/
theorem apart_of_reaches {content : σ} (hswaps : ¬SwapClash T programs)
    (hrun : Reaches T (State.start content programs) s) :
    Progress T programs s ∧ Locked T s ∧ Apart T s := by
  induction hrun with
  | refl => exact ⟨progress_start content programs, locked_start content programs,
      Apart.start content programs⟩
  | tail _ hstep ih =>
      obtain ⟨hprogress, hlocked, hapart⟩ := ih
      exact ⟨hprogress.step hlocked hstep, hlocked.step hstep,
        hapart.step hstep hprogress hlocked hswaps⟩

/-- **No write is lost** in a run of programs that do not clash. -/
theorem kept_of_reaches {content : σ} (hwrites : ¬WriteClash T programs)
    (hswaps : ¬SwapClash T programs) (hrun : Reaches T (State.start content programs) s) :
    s.file.shown = s.log := by
  have hfresh : Fresh s := by
    induction hrun with
    | refl => exact ⟨nofun, rfl⟩
    | tail hbefore hstep ih =>
        obtain ⟨hprogress, hlocked, hapart⟩ := apart_of_reaches hswaps hbefore
        exact ih.step hstep hprogress hlocked hapart hwrites
  exact hfresh.kept

/-! ### What the file says -/

/-- What a file says after writes. -/
def outcome {μ : Type*} (step : α → μ → μ) (writes : List α) (m : μ) : μ :=
  writes.foldl (fun m task => step task m) m

/-- A file says what the writes it shows have left. -/
def File.Meant {μ : Type*} (meaning : σ → μ) (step : α → μ → μ) (first : μ) (f : File α σ) : Prop :=
  meaning f.content = outcome step f.shown first

theorem meant_write {μ : Type*} {meaning : σ → μ} {step : α → μ → μ} {first : μ} {f : File α σ}
    (h : f.Meant meaning step first) {w : α}
    (hwrite : meaning (T.write w f.content) = step w (meaning f.content)) :
    File.Meant meaning step first ⟨T.write w f.content, f.shown ++ [w]⟩ := by
  show meaning (T.write w f.content) = outcome step (f.shown ++ [w]) first
  rw [hwrite, h, outcome, outcome, List.foldl_append]
  rfl

/-- **A run leaves a file that says what the writes it shows have left**, if swaps do
not meet. -/
theorem outcome_of_reaches {μ : Type*} {meaning : σ → μ} {step : α → μ → μ} {content : σ}
    (hwrite : ∀ task content, T.kind task ≠ .swap →
      meaning (T.write task content) = step task (meaning content))
    (hrewrite : ∀ content, meaning (T.rewrite content) = meaning content)
    (hswaps : ¬SwapClash T programs) (hrun : Reaches T (State.start content programs) s) :
    meaning s.file.content = outcome step s.file.shown (meaning content) := by
  have hall : s.file.Meant meaning step (meaning content) ∧ ∀ i copy,
      (s.phase i).copy = some copy → copy.Meant meaning step (meaning content) := by
    induction hrun with
    | refl => exact ⟨rfl, nofun⟩
    | tail hbefore hstep ih =>
        obtain ⟨hfile, hcopies⟩ := ih
        obtain ⟨-, hlocked, hapart⟩ := apart_of_reaches hswaps hbefore
        refine ⟨?_, fun j copy hj => ?_⟩
        · rcases hstep.file_cases hlocked hapart with ⟨hsame, -⟩ |
              ⟨i, w, tasks, -, -, hkind, -, hput, -⟩ | ⟨i, copy, hcopy, hswap, -⟩
          · rwa [hsame]
          · rw [hput]
            exact meant_write hfile (hwrite w _ hkind)
          · rw [hswap]
            exact hcopies i copy hcopy
        · rcases hstep.copy_cases hj with hold | ⟨rfl, -⟩
          · exact hcopies j copy hold
          · exact (hrewrite _).trans hfile
  exact hall.1

/-! ### With a clash -/

/-- A client can pass its first tasks: it gives up waiting, and makes the writes that
need no lock. -/
theorem reaches_skip {earlier rest : List α} (hidle : s.phase i = .idle)
    (htodo : s.todo i = earlier ++ rest) :
    ∃ t, Reaches T s t ∧ t.phase = s.phase ∧ t.todo = Function.update s.todo i rest ∧
      t.path = s.path ∧ (s.file.shown = s.log → t.file.shown = t.log) := by
  induction earlier generalizing s with
  | nil =>
      refine ⟨s, .refl, rfl, ?_, rfl, id⟩
      exact (Function.update_eq_self_iff.mpr htodo.symm).symm
  | cons task earlier ih =>
      have hrest : ∀ s' : State ι α σ, s'.phase = s.phase →
          s'.todo = Function.update s.todo i (earlier ++ rest) →
          ∃ t, Reaches T s' t ∧ t.phase = s.phase ∧ t.todo = Function.update s.todo i rest ∧
            t.path = s'.path ∧ (s'.file.shown = s'.log → t.file.shown = t.log) := by
        intro s' hphase htodo'
        obtain ⟨t, hrun, htphase, httodo, htpath, htkept⟩ :=
          @ih s' (hphase ▸ hidle) (by rw [htodo', Function.update_self])
        refine ⟨t, hrun, htphase.trans hphase, ?_, htpath, htkept⟩
        rw [httodo, htodo', Function.update_idem]
      by_cases hkind : T.kind task = .bare
      · let written := { s.put T task with todo := Function.update s.todo i (earlier ++ rest) }
        obtain ⟨t, hrun, hphase, htodo', hpath, hkept⟩ := hrest written rfl rfl
        refine ⟨t, .head (.bare hidle htodo hkind) hrun, hphase, htodo', hpath, fun h => hkept ?_⟩
        have hfile : written.file = ⟨T.write task s.file.content, s.file.shown ++ [task]⟩ :=
          Function.update_self _ _ _
        rw [hfile]
        exact congrArg (· ++ [task]) h
      · let opened := { s with todo := Function.update s.todo i (earlier ++ rest) }.move i
          (.waiting task s.path)
        have hopen : Step T s opened := .opens hidle htodo hkind
        have hgiveUp : Step T opened (opened.move i .idle) :=
          .giveUp (by rw [phase_move, if_pos rfl])
        have hphase : (opened.move i .idle).phase = s.phase := by
          show Function.update (Function.update s.phase i _) i .idle = s.phase
          rw [Function.update_idem]
          exact Function.update_eq_self_iff.mpr hidle.symm
        obtain ⟨t, hrun, hrest'⟩ := hrest (opened.move i .idle) hphase rfl
        exact ⟨t, .head hopen (.head hgiveUp hrun), hrest'⟩

/-- A client can enter its block where nobody holds the file the path names. -/
theorem reaches_inside {task : α} {tasks : List α} (hidle : s.phase i = .idle)
    (htodo : s.todo i = task :: tasks) (hkind : T.kind task ≠ .bare)
    (hfree : ∀ j, ¬s.Holds j s.path) :
    Reaches T s ({ s with todo := Function.update s.todo i tasks }.move i
      (.inside task s.path)) := by
  let opened := { s with todo := Function.update s.todo i tasks }.move i (.waiting task s.path)
  have hopen : Step T s opened := .opens hidle htodo hkind
  have hgrant : Step T opened (opened.move i (.inside task s.path)) := by
    refine .grant (by rw [phase_move, if_pos rfl]) fun j hj => ?_
    rw [holds_move] at hj
    split at hj
    · cases hj
    · exact hfree j hj
  have hmove : opened.move i (.inside task s.path) =
      { s with todo := Function.update s.todo i tasks }.move i (.inside task s.path) := by
    simp only [opened, State.move, Function.update_idem]
  exact hmove ▸ .tail (.single hopen) hgrant

/-- It can then read the file for a swap. -/
theorem reaches_read {task : α} {tasks : List α} (hidle : s.phase i = .idle)
    (htodo : s.todo i = task :: tasks) (hkind : T.kind task = .swap)
    (hfree : ∀ j, ¬s.Holds j s.path) :
    Reaches T s ({ s with todo := Function.update s.todo i tasks }.move i
      (.read task s.path ⟨T.rewrite s.file.content, s.file.shown⟩)) := by
  have hlocked : T.kind task ≠ .bare := hkind.trans_ne nofun
  let copy : File α σ := ⟨T.rewrite s.file.content, s.file.shown⟩
  let entered := { s with todo := Function.update s.todo i tasks }.move i (.inside task s.path)
  have hread : Step T entered (entered.move i (.read task s.path copy)) :=
    .read (by rw [phase_move, if_pos rfl]) hkind
  have hmove : entered.move i (.read task s.path copy) =
      { s with todo := Function.update s.todo i tasks }.move i (.read task s.path copy) := by
    simp only [entered, State.move, Function.update_idem]
  exact hmove ▸ (reaches_inside hidle htodo hlocked hfree).tail hread

/-- Who has read it can open the temporary file and fill it. -/
theorem reaches_filled {task : α} {file : ℕ} {copy : File α σ}
    (hread : s.phase i = .read task file copy) :
    ∃ t, Reaches T s t ∧ t.phase = Function.update s.phase i (.filled task file copy) ∧
      t.todo = s.todo ∧ t.path = s.path ∧ t.temp = some s.target ∧
      t.files = Function.update s.files s.target copy ∧ t.log = s.log := by
  let opened := (s.openTemp T).move i (.filling task file copy s.target)
  have hopen : Step T s opened := .openTemp hread
  have hblank : (opened.files s.target).content = T.blank := by
    show (Function.update s.files s.target _ s.target).content = T.blank
    rw [Function.update_self]
  have hfill : Step T opened ({ opened with
      files := Function.update opened.files s.target copy }.move i (.filled task file copy)) :=
    .fill (by rw [phase_move, if_pos rfl]) (by rw [hblank, T.overlay_blank])
  refine ⟨_, .tail (.single hopen) hfill, ?_, rfl, rfl, rfl, ?_, rfl⟩
  · show Function.update (Function.update s.phase i _) i _ = _
    rw [Function.update_idem]
  · show Function.update (Function.update s.files s.target _) s.target _ = _
    rw [Function.update_idem]

/-- And it can rename it. -/
theorem reaches_renamed (hlocked : Locked T s) {task : α} {file : ℕ} {copy : File α σ}
    (hread : s.phase i = .read task file copy) :
    ∃ t, Reaches T s t ∧ t.phase = Function.update s.phase i (.done task file) ∧
      t.todo = s.todo ∧ s.path < t.path ∧ t.file = copy ∧ t.log = s.log := by
  obtain ⟨t, hrun, hphase, htodo, -, htemp, hfiles, hlog⟩ := reaches_filled (T := T) hread
  have hfilled : t.phase i = .filled task file copy := by rw [hphase, Function.update_self]
  refine ⟨_, hrun.tail (.rename hfilled htemp), ?_, htodo, hlocked.lt_target, ?_, hlog⟩
  · show Function.update t.phase i _ = _
    rw [hphase, Function.update_idem]
  · show t.files s.target = copy
    rw [hfiles, Function.update_self]

/-- It can swap the file. -/
theorem reaches_swap (hlocked : Locked T s) {task : α} {tasks : List α}
    (hidle : s.phase i = .idle) (htodo : s.todo i = task :: tasks) (hkind : T.kind task = .swap)
    (hfree : ∀ j, ¬s.Holds j s.path) :
    ∃ t, Reaches T s t ∧ t.phase = s.phase ∧ t.todo = Function.update s.todo i tasks ∧
      s.path < t.path ∧ (s.file.shown = s.log → t.file.shown = t.log) := by
  have hbegin := reaches_read hidle htodo hkind hfree
  obtain ⟨t, hrun, hphase, htodo', hpath, hfile, hlog⟩ :=
    reaches_renamed (hlocked.reaches hbegin) (i := i) (by rw [phase_move, if_pos rfl])
  have hholds : t.Holds i s.path := by
    rw [State.Holds, hphase, Function.update_self]
    rfl
  refine ⟨_, (hbegin.trans hrun).tail (.release hholds), ?_, htodo', hpath, fun h => ?_⟩
  · show Function.update t.phase i .idle = s.phase
    rw [hphase]
    show Function.update (Function.update (Function.update s.phase i _) i _) i .idle = s.phase
    rw [Function.update_idem, Function.update_idem]
    exact Function.update_eq_self_iff.mpr hidle.symm
  · show t.file.shown = t.log
    rw [hfile, hlog]
    exact h

/-- Two clients have read the file for a swap, and one opens the temporary file when
the other one has filled it. -/
theorem exists_blank_of_read {task task' : α} {file file' : ℕ} {copy copy' : File α σ}
    (hij : i ≠ j) (hi : s.phase i = .read task file copy)
    (hj : s.phase j = .read task' file' copy') :
    ∃ t, Reaches T s t ∧ t.file = ⟨T.blank, []⟩ := by
  obtain ⟨t, hrun, hphase, -, -, htemp, -, -⟩ := reaches_filled (T := T) hi
  have hj' : t.phase j = .read task' file' copy' := by
    rw [hphase, Function.update_of_ne hij.symm, hj]
  let opened := (t.openTemp T).move j (.filling task' file' copy' t.target)
  have hopen : Step T t opened := .openTemp hj'
  have hfilled : opened.phase i = .filled task file copy := by
    rw [phase_move, if_neg hij]
    show t.phase i = _
    rw [hphase, Function.update_self]
  refine ⟨_, (hrun.tail hopen).tail (.rename hfilled rfl), ?_⟩
  exact Function.update_self _ _ _

/-- A write without the lock, after a swap has read the file. -/
theorem exists_lost_of_bare (hlocked : Locked T s) {w k : α} {tasks tasks' : List α} (hij : i ≠ j)
    (hi : s.phase i = .idle) (htodo : s.todo i = w :: tasks) (hw : T.kind w = .bare)
    (hj : s.phase j = .idle) (htodo' : s.todo j = k :: tasks') (hk : T.kind k = .swap)
    (hfree : ∀ l, ¬s.Holds l s.path) :
    ∃ t, Reaches T s t ∧ t.file.shown = s.file.shown ∧ t.log = s.log ++ [w] := by
  let reader := { s with todo := Function.update s.todo j tasks' }.move j
    (.read k s.path ⟨T.rewrite s.file.content, s.file.shown⟩)
  let written := { reader.put T w with todo := Function.update reader.todo i tasks }
  have hwrite : Step T reader written := by
    apply Step.bare
    · rw [phase_move, if_neg hij]
      exact hi
    · exact (Function.update_of_ne hij _ _).trans htodo
    · exact hw
  have hbegin : Reaches T s written := (reaches_read hj htodo' hk hfree).tail hwrite
  obtain ⟨t, hrun, -, -, -, hfile, hlog⟩ := reaches_renamed (hlocked.reaches hbegin) (i := j)
    (Function.update_self _ _ _ : written.phase j = _)
  exact ⟨t, hbegin.trans hrun, by rw [hfile], hlog⟩

/-- A write under the lock of another file. -/
theorem exists_lost_of_append (hlocked : Locked T s) {w k : α} {file : ℕ} {tasks : List α}
    (hij : i ≠ j) (hi : s.phase i = .inside w file) (hw : T.kind w = .append)
    (hj : s.phase j = .idle) (htodo : s.todo j = k :: tasks) (hk : T.kind k = .swap)
    (hfree : ∀ l, ¬s.Holds l s.path) :
    ∃ t, Reaches T s t ∧ t.file.shown = s.file.shown ∧ t.log = s.log ++ [w] := by
  let reader := { s with todo := Function.update s.todo j tasks }.move j
    (.read k s.path ⟨T.rewrite s.file.content, s.file.shown⟩)
  let written := (reader.put T w).move i (.done w file)
  have hwrite : Step T reader written := by
    refine .append ?_ hw
    rw [phase_move, if_neg hij]
    exact hi
  have hread : written.phase j = .read k s.path ⟨T.rewrite s.file.content, s.file.shown⟩ := by
    rw [phase_move, if_neg hij.symm]
    exact Function.update_self _ _ _
  have hbegin : Reaches T s written := (reaches_read hj htodo hk hfree).tail hwrite
  obtain ⟨t, hrun, -, -, -, hfile, hlog⟩ := reaches_renamed (hlocked.reaches hbegin) hread
  exact ⟨t, hbegin.trans hrun, by rw [hfile], hlog⟩

/-- A write under the lock of the new file, where the swap holds the old one. -/
theorem exists_lost_of_swap (hlocked : Locked T s) {w k : α} {file : ℕ} {tasks : List α}
    (hij : i ≠ j) (hi : s.phase i = .idle) (htodo : s.todo i = w :: tasks)
    (hw : T.kind w = .append) (hj : s.phase j = .inside k file) (hk : T.kind k = .swap)
    (hfree : ∀ l, ¬s.Holds l s.path) :
    ∃ t, Reaches T s t ∧ t.file.shown = s.file.shown ∧ t.log = s.log ++ [w] := by
  let copy : File α σ := ⟨T.rewrite s.file.content, s.file.shown⟩
  let reader := s.move j (.read k file copy)
  let entered := { reader with todo := Function.update reader.todo i tasks }.move i
    (.inside w s.path)
  let written := (entered.put T w).move i (.done w s.path)
  have hbegin : Step T s reader := .read hj hk
  have hfile : file ≠ s.path := by
    rintro rfl
    exact hfree j (congrArg Phase.held hj)
  have hentered : Reaches T reader entered := by
    refine reaches_inside ?_ htodo (hw.trans_ne nofun) fun l hl => ?_
    · rw [phase_move, if_neg hij]
      exact hi
    · rw [holds_move] at hl
      split at hl
      · exact hfile (Option.some.inj hl)
      · exact hfree l hl
  have hwrite : Step T entered written := .append (by rw [phase_move, if_pos rfl]) hw
  have hread : written.phase j = .read k file copy := by
    rw [phase_move, if_neg hij.symm]
    show entered.phase j = _
    rw [phase_move, if_neg hij.symm]
    exact Function.update_self _ _ _
  have hall : Reaches T s written := (Relation.ReflTransGen.head hbegin hentered).tail hwrite
  obtain ⟨t, hrun, -, -, -, hcopy, hlog⟩ := reaches_renamed (hlocked.reaches hall) hread
  exact ⟨t, hall.trans hrun, by rw [hcopy], hlog⟩

/-- Two swaps, one under the lock of the old file. -/
theorem exists_blank_of_inside {w k : α} {file : ℕ} {tasks : List α} (hij : i ≠ j)
    (hi : s.phase i = .inside w file) (hw : T.kind w = .swap) (hj : s.phase j = .idle)
    (htodo : s.todo j = k :: tasks) (hk : T.kind k = .swap) (hfree : ∀ l, ¬s.Holds l s.path) :
    ∃ t, Reaches T s t ∧ t.file = ⟨T.blank, []⟩ := by
  let reader := { s with todo := Function.update s.todo j tasks }.move j
    (.read k s.path ⟨T.rewrite s.file.content, s.file.shown⟩)
  have hinside : reader.phase i = .inside w file := by
    rw [phase_move, if_neg hij]
    exact hi
  obtain ⟨t, hrun, hblank⟩ := exists_blank_of_read (T := T)
    (s := reader.move i (.read w file ⟨T.rewrite reader.file.content, reader.file.shown⟩)) hij
    (by rw [phase_move, if_pos rfl])
    (by rw [phase_move, if_neg hij.symm, phase_move, if_pos rfl])
  exact ⟨t, ((reaches_read hj htodo hk hfree).tail (.read hinside hw)).trans hrun, hblank⟩

/-- Nobody is inside where one client waits and the others have nothing open. -/
theorem not_holds_of_waiting {task : α} {file : ℕ}
    (h : s.phase = Function.update (fun _ => .idle) i (.waiting task file)) (l : ι) (file' : ℕ) :
    ¬s.Holds l file' := by
  rw [State.Holds, h, Function.update_apply]
  split
  · intro hl
    cases hl
  · intro hl
    cases hl

/-- While one client waits on the file it has opened, another one swaps the file, and
a client passes what is before its next task.  Then the first one enters, and nobody
holds the new file. -/
theorem exists_late (hlocked : Locked T s) {l m : ι} {task t : α}
    {tasks rest between tasks' : List α} (hil : i ≠ l) (him : i ≠ m)
    (hquiet : s.phase = fun _ => .idle) (htodo : s.todo i = task :: tasks)
    (hkind : T.kind task ≠ .bare) (hl : s.todo l = t :: rest) (ht : T.kind t = .swap)
    (hm : Function.update s.todo l rest m = between ++ tasks') (hkept : s.file.shown = s.log) :
    ∃ late, Reaches T s late ∧ late.phase i = .inside task s.path ∧ late.phase m = .idle ∧
      late.todo m = tasks' ∧ (∀ k, ¬late.Holds k late.path) ∧ late.file.shown = late.log := by
  let opened := { s with todo := Function.update s.todo i tasks }.move i (.waiting task s.path)
  have hopen : Step T s opened := .opens (by rw [hquiet]) htodo hkind
  have hphase : opened.phase = Function.update (fun _ => .idle) i (.waiting task s.path) := by
    show Function.update s.phase i _ = _
    rw [hquiet]
  have hidle : opened.phase l = .idle := by rw [hphase, Function.update_of_ne hil.symm]
  have hnext : opened.todo l = t :: rest := (Function.update_of_ne hil.symm _ _).trans hl
  obtain ⟨s₁, hswap, hphase₁, htodo₁, hpath₁, hkept₁⟩ :=
    reaches_swap (hlocked.step hopen) hidle hnext ht fun k => not_holds_of_waiting hphase k _
  have htodo₁m : s₁.todo m = between ++ tasks' := by
    rw [htodo₁, ← hm]
    show Function.update (Function.update s.todo i tasks) l rest m = _
    rw [Function.update_comm hil, Function.update_of_ne him.symm]
  obtain ⟨s₂, hskip, hphase₂, htodo₂, hpath₂, hkept₂⟩ := reaches_skip (T := T)
    (by rw [hphase₁, hphase, Function.update_of_ne him.symm] : s₁.phase m = .idle) htodo₁m
  have hphase' : s₂.phase = Function.update (fun _ => .idle) i (.waiting task s.path) := by
    rw [hphase₂, hphase₁, hphase]
  have hgrant : Step T s₂ (s₂.move i (.inside task s.path)) :=
    .grant (by rw [hphase', Function.update_self]) fun k => not_holds_of_waiting hphase' k _
  refine ⟨_, .head hopen (hswap.trans (hskip.tail hgrant)), ?_, ?_, ?_, fun k hk => ?_,
    hkept₂ (hkept₁ hkept)⟩
  · rw [phase_move, if_pos rfl]
  · rw [phase_move, if_neg him.symm, hphase', Function.update_of_ne him.symm]
  · show s₂.todo m = tasks'
    rw [htodo₂, Function.update_self]
  · rw [holds_move] at hk
    split at hk
    · have hold : s.path = s₂.path := Option.some.inj hk
      exact absurd (hold.trans hpath₂) (Nat.ne_of_lt hpath₁)
    · exact not_holds_of_waiting hphase' k _ hk

/-- Two clients can pass their first tasks. -/
theorem reaches_skip_two (content : σ) {earlier rest earlier' rest' : List α} (hij : i ≠ j)
    (hi : programs i = earlier ++ rest) (hj : programs j = earlier' ++ rest') :
    ∃ t, Reaches T (State.start content programs) t ∧ Locked T t ∧ t.phase = (fun _ => .idle) ∧
      t.file.shown = t.log ∧
      t.todo = Function.update (Function.update programs i rest) j rest' := by
  obtain ⟨s₁, hrun₁, hphase₁, htodo₁, -, hkept₁⟩ :=
    reaches_skip (T := T) (s := State.start content programs) rfl hi
  obtain ⟨s₂, hrun₂, hphase₂, htodo₂, -, hkept₂⟩ :=
    reaches_skip (T := T) (by rw [hphase₁]; rfl : s₁.phase j = .idle)
      (by rw [htodo₁, Function.update_of_ne hij.symm]; exact hj)
  have hrun := hrun₁.trans hrun₂
  exact ⟨s₂, hrun, (locked_start content programs).reaches hrun, hphase₂.trans hphase₁,
    hkept₂ (hkept₁ rfl), htodo₂.trans (congrArg (Function.update · j rest') htodo₁)⟩

/-- A client at its task holds the old file, another one has its task before it, and
nobody holds the file under the path. -/
def Late (s : State ι α σ) (i j : ι) (w k : α) : Prop :=
  i ≠ j ∧ (∃ file, s.phase i = .inside w file) ∧ s.phase j = .idle ∧
    (∃ tasks, s.todo j = k :: tasks) ∧ ∀ l, ¬s.Holds l s.path

/-- **Who meets can be inside together**: some run brings the two there, with every
write shown. -/
theorem exists_late_of_meet (content : σ) {w k : α} (hmeet : Meet T programs w k)
    (hbare : T.kind w ≠ .bare) :
    ∃ s, Reaches T (State.start content programs) s ∧ Locked T s ∧ s.file.shown = s.log ∧
      T.kind k = .swap ∧ ∃ i j, Late s i j w k ∨ Late s i j k w := by
  obtain ⟨i, j, earlier, later, earlier', later', hij, hi, hj, hk, hcase⟩ := hmeet
  have hkbare : T.kind k ≠ .bare := hk.trans_ne nofun
  rcases hcase with h | ⟨t, hmem, ht⟩ | ⟨t, hmem, ht⟩ | ⟨l, hli, hlj, t, hmem, ht⟩
  · exact absurd h hbare
  · -- the first one has swapped the file before
    obtain ⟨before, between, rfl⟩ := List.append_of_mem hmem
    rw [List.append_assoc, List.cons_append] at hi
    obtain ⟨s, hrun, hlocked, hphase, hkept, htodo⟩ :=
      reaches_skip_two (T := T) content hij hi hj
    obtain ⟨late, hlate, hinside, hidle, hnext, hfree, hkept'⟩ := exists_late hlocked hij.symm
      hij.symm hphase (by rw [htodo, Function.update_self]) hkbare
      (by rw [htodo, Function.update_of_ne hij, Function.update_self]) ht
      (Function.update_self _ _ _) hkept
    exact ⟨late, hrun.trans hlate, hlocked.reaches hlate, hkept', hk, j, i,
      Or.inr ⟨hij.symm, ⟨_, hinside⟩, hidle, ⟨_, hnext⟩, hfree⟩⟩
  · -- the second one has
    obtain ⟨before, between, rfl⟩ := List.append_of_mem hmem
    rw [List.append_assoc, List.cons_append] at hj
    obtain ⟨s, hrun, hlocked, hphase, hkept, htodo⟩ :=
      reaches_skip_two (T := T) content hij hi hj
    obtain ⟨late, hlate, hinside, hidle, hnext, hfree, hkept'⟩ := exists_late hlocked hij
      hij hphase (by rw [htodo, Function.update_of_ne hij, Function.update_self]) hbare
      (by rw [htodo, Function.update_self]) ht (Function.update_self _ _ _) hkept
    exact ⟨late, hrun.trans hlate, hlocked.reaches hlate, hkept', hk, i, j,
      Or.inl ⟨hij, ⟨_, hinside⟩, hidle, ⟨_, hnext⟩, hfree⟩⟩
  · -- a third client has
    obtain ⟨before, rest, hl⟩ := List.append_of_mem hmem
    obtain ⟨s, hrun, hlocked, hphase, hkept, htodo⟩ :=
      reaches_skip_two (T := T) content hli.symm hi hl
    obtain ⟨late, hlate, hinside, hidle, hnext, hfree, hkept'⟩ := exists_late hlocked hli.symm
      hij hphase (by rw [htodo, Function.update_of_ne hli.symm, Function.update_self]) hbare
      (by rw [htodo, Function.update_self]) ht
      (by rw [Function.update_of_ne hlj.symm, htodo, Function.update_of_ne hlj.symm,
        Function.update_of_ne hij.symm, hj]) hkept
    exact ⟨late, hrun.trans hlate, hlocked.reaches hlate, hkept', hk, i, j,
      Or.inl ⟨hij, ⟨_, hinside⟩, hidle, ⟨_, hnext⟩, hfree⟩⟩

/-- **A write can be lost** wherever a write and a swap meet: some run makes it last,
and the file shows all but this one. -/
theorem exists_lost_of_clash (content : σ) (hclash : WriteClash T programs) :
    ∃ t w, Reaches T (State.start content programs) t ∧ t.log = t.file.shown ++ [w] := by
  obtain ⟨w, k, hw, hmeet⟩ := hclash
  by_cases hbare : T.kind w = .bare
  · obtain ⟨i, j, earlier, later, earlier', later', hij, hi, hj, hk, -⟩ := hmeet
    obtain ⟨s, hrun, hlocked, hphase, hkept, htodo⟩ :=
      reaches_skip_two (T := T) content hij hi hj
    obtain ⟨t, hlost, hshown, hlog⟩ := exists_lost_of_bare hlocked hij (by rw [hphase])
      (by rw [htodo, Function.update_of_ne hij, Function.update_self]) hbare (by rw [hphase])
      (by rw [htodo, Function.update_self]) hk
      (fun l hl => by rw [State.Holds, hphase] at hl; cases hl)
    exact ⟨t, w, hrun.trans hlost, by rw [hlog, hshown, hkept]⟩
  have happend : T.kind w = .append := by
    cases hkind : T.kind w with
    | append => rfl
    | bare => exact absurd hkind hbare
    | swap => exact absurd hkind hw
  obtain ⟨s, hrun, hlocked, hkept, hk, i, j, hlate⟩ := exists_late_of_meet content hmeet hbare
  rcases hlate with ⟨hij, ⟨file, hi⟩, hj, ⟨tasks, htodo⟩, hfree⟩ |
      ⟨hij, ⟨file, hi⟩, hj, ⟨tasks, htodo⟩, hfree⟩
  · obtain ⟨t, hlost, hshown, hlog⟩ :=
      exists_lost_of_append hlocked hij hi happend hj htodo hk hfree
    exact ⟨t, w, hrun.trans hlost, by rw [hlog, hshown, hkept]⟩
  · obtain ⟨t, hlost, hshown, hlog⟩ :=
      exists_lost_of_swap hlocked hij.symm hj htodo happend hi hk hfree
    exact ⟨t, w, hrun.trans hlost, by rw [hlog, hshown, hkept]⟩

/-- **The file can be emptied** wherever two swaps meet. -/
theorem exists_blank_of_clash (content : σ) (hclash : SwapClash T programs) :
    ∃ t, Reaches T (State.start content programs) t ∧ t.file = ⟨T.blank, []⟩ := by
  obtain ⟨w, k, hw, hmeet⟩ := hclash
  obtain ⟨s, hrun, -, -, hk, i, j, hlate⟩ :=
    exists_late_of_meet content hmeet (hw.trans_ne nofun)
  rcases hlate with ⟨hij, ⟨file, hi⟩, hj, ⟨tasks, htodo⟩, hfree⟩ |
      ⟨hij, ⟨file, hi⟩, hj, ⟨tasks, htodo⟩, hfree⟩
  · obtain ⟨t, hblank, hfile⟩ := exists_blank_of_inside hij hi hw hj htodo hk hfree
    exact ⟨t, hrun.trans hblank, hfile⟩
  · obtain ⟨t, hblank, hfile⟩ := exists_blank_of_inside hij hi hk hj htodo hw hfree
    exact ⟨t, hrun.trans hblank, hfile⟩

end FileSwap
