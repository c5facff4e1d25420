import OsCourse.Shell.Redirections

/-! # Redirections that cannot be opened

The processes of a command over a file system: whether an `open` succeeds is
decided by the file at the time of the call, and everybody else may change the
files at any time. `runcmd` does not look at the result of `open`, and it asks
for a missing file to be created in either direction.
-/

namespace OsCourse.Shell

open Transition

/-- What a name stands for: no file, which may be possible to create; a file with
the permissions of the user of the shell; or what `open` refuses with `O_CREAT`: a
directory, which is never writable, or a file of somebody else's that the system
guards. -/
inductive Entry
  | missing (creatable : Bool)
  | file (readable writable : Bool)
  | guarded (readable writable : Bool)
  deriving DecidableEq, Repr

/-- The permission for an access. -/
def Access.permits (readable writable : Bool) : Access → Bool
  | .rdonly => readable
  | .wronly => writable

/-- The result of `open`. -/
def Entry.opens : Entry → OpenFlags → Bool
  | .missing creatable, flags => flags.creat && creatable
  | .file readable writable, flags => flags.access.permits readable writable
  | .guarded readable writable, flags => !flags.creat && flags.access.permits readable writable

/-- A new file: its owner's permissions are bits 8 and 7 of the mode. -/
def Entry.created (umask perm : Nat) : Entry :=
  .file (perm.testBit 8 && !umask.testBit 8) (perm.testBit 7 && !umask.testBit 7)

/-- The file after `open`. -/
def Entry.afterOpen (umask : Nat) (entry : Entry) (flags : OpenFlags) (perm : Nat) : Entry :=
  match entry with
  | .missing true => if flags.creat then .created umask perm else entry
  | _ => entry

/-- The flags of a redirection before `runcmd` adds `O_CREAT`. -/
def OpenFlags.own (flags : OpenFlags) : OpenFlags :=
  { flags with creat := flags.creat && flags.access = .wronly }

/-- What the names of a command stand for. Where two of them name one file, the second
follows the first by a change from outside. -/
abbrev Files := Text → Entry

structure Machine where
  sys : System
  files : Files
  umask : Nat

/-- A step of the shell's processes, or a change of the files from outside. -/
inductive FileAction
  | sys (action : SysAction)
  | change (files : Files)

/-- An event and the files at its time. -/
structure FileEvent where
  event : SysEvent
  files : Files

namespace Machine

/-- The file `open` is about to be called for by process `i`. -/
def opening (m : Machine) (i : Nat) : Option (Text × OpenFlags × Nat) :=
  match m.sys.procs[i]? with
  | some pr =>
      match pr.status with
      | .running (.openFile file flags perm _) => some (file, flags, perm)
      | _ => none
  | none => none

/-- The result of `open` is decided by the files. -/
def admits (m : Machine) : SysAction → Bool
  | .call i ok =>
      match m.opening i with
      | some (file, flags, _) => ok = (m.files file).opens flags
      | none => true
  | _ => true

def filesAfter (m : Machine) : SysAction → Files
  | .call i _ =>
      match m.opening i with
      | some (file, flags, perm) =>
          Function.update m.files file ((m.files file).afterOpen m.umask flags perm)
      | none => m.files
  | _ => m.files

def step (m : Machine) : FileAction → Option (Machine × List FileEvent)
  | .sys action =>
      if m.admits action then
        (m.sys.step action).map fun r =>
          ({ m with sys := r.1, files := m.filesAfter action },
            r.2.map fun event => ⟨event, m.files⟩)
      else none
  | .change files => some ({ m with files := files }, [])

end Machine

/-- Process `i` makes a redirection to a file that cannot be opened in the
redirection's own mode. -/
def FileEvent.Refused (e : FileEvent) (i : Nat) : Prop :=
  ∃ file flags perm ok, e.event = .opened i file flags perm ok ∧
    (e.files file).opens flags.own = false

/-- An input redirection creates its file. -/
def FileEvent.CreatesInput (e : FileEvent) : Prop :=
  ∃ i file flags perm, e.event = .opened i file flags perm true ∧
    flags.access = .rdonly ∧ e.files file = .missing true

/-- After a redirection that cannot be opened the process executes no program,
and input redirections create no files. -/
structure FailureContained (history : List FileEvent) : Prop where
  stops : history.Pairwise fun e later =>
    ∀ i, e.Refused i → ∀ argv fds, later.event ≠ .execvp i argv fds
  keepsInput : ∀ e ∈ history, ¬e.CreatesInput

/-- A call of a stage with one of the files it names at either descriptor. -/
structure BoundCall (stage : Stage) (call : ExecCall) : Prop where
  argv : call.1 = argvOf stage.words
  bound : ∀ type, stage.files type ≠ [] →
    ∃ file ∈ stage.files type, call.2.get type.fd = some (type.open file)

/-- A redirection is made only when its file can be opened in the redirection's
own mode, or in a stage without words and without creating an input file. -/
def opensOwn (m : Machine) : FileAction → Prop
  | .sys (.call i _) =>
      ∀ pr ∈ m.sys.procs[i]?, ∀ file flags perm next,
        pr.status = .running (.openFile file flags perm next) →
        (m.files file).opens flags.own = true ∨
          (next.NoExec ∧ ¬(flags.access = .rdonly ∧ m.files file = .missing true))
  | _ => True

/-- Of a stage with words, a redirection is made only when the `open` succeeds that
`runcmd` makes, which adds `O_CREAT` to the mode. -/
def opensMade (m : Machine) : FileAction → Prop
  | .sys (.call i _) =>
      ∀ pr ∈ m.sys.procs[i]?, ∀ file flags perm next,
        pr.status = .running (.openFile file flags perm next) →
        (m.files file).opens flags = true ∨ next.NoExec
  | _ => True

def pipesSucceed (m : Machine) : FileAction → Prop
  | .sys (.call i ok) =>
      ∀ pr ∈ m.sys.procs[i]?, ∀ next, pr.status = .running (.pipe next) → ok = true
  | _ => True

theorem not_missing_of_own {entry : Entry} {flags : OpenFlags} (h : entry.opens flags.own = true)
    (haccess : flags.access = .rdonly) : entry ≠ .missing true := by
  rintro rfl
  simp [Entry.opens, OpenFlags.own, haccess] at h

/-! ## What a step does to the processes -/

/-- What a process may go on with after a call. -/
def Prog.continuations : Prog → List Prog
  | .close _ next | .dup _ next | .openFile _ _ _ next | .pipe next | .execvp _ next
  | .wait next => [next]
  | .fork child parent => [child, parent]
  | .exit => []

/-- A process that has not terminated. -/
def Process.Active (pr : Process) : Prop := pr.status ≠ .terminated ∧ pr.status ≠ .reaped

/-- The code a process still has to run, if any, has the property `P`. -/
def Process.Runs (P : Prog → Prop) (pr : Process) : Prop :=
  ∀ code, pr.status = .running code → P code

theorem Process.runs_of_running {P : Prog → Prop} {pr : Process} {code : Prog}
    (hstatus : pr.status = .running code) (h : P code) : pr.Runs P := by
  intro other hother
  rw [hstatus] at hother
  cases hother
  exact h

theorem Process.runs_of_stopped {P : Prog → Prop} {pr : Process}
    (h : ∀ code, pr.status ≠ .running code) : pr.Runs P :=
  fun code hcode => absurd hcode (h code)

/-- All that a step does to the processes: one of them goes on after a call, forks,
has no code left to run, or collects a child. -/
inductive System.Step (sys : System) : System → Prop
  | goOn (i : Nat) {pr pr' : Process} {code next : Prog} {pipes : Nat}
      (hpr : sys.procs[i]? = some pr) (hstatus : pr.status = .running code)
      (hnext : next ∈ code.continuations) (hgoes : pr'.status = .running next)
      (hparent : pr'.parent = pr.parent) : Step sys ⟨sys.procs.set i pr', pipes⟩
  | fork (i : Nat) {pr : Process} {child parent : Prog} (hpr : sys.procs[i]? = some pr)
      (hstatus : pr.status = .running (.fork child parent)) :
      Step sys ⟨sys.procs.set i (pr.goOn parent pr.fds) ++
        [{ pr with parent := some i, status := .running child }], sys.nextPipe⟩
  | stop (i : Nat) {pr pr' : Process} (hpr : sys.procs[i]? = some pr) (hactive : pr.Active)
      (hstopped : ∀ code, pr'.status ≠ .running code) (hparent : pr'.parent = pr.parent) :
      Step sys ⟨sys.procs.set i pr', sys.nextPipe⟩
  | reap (i child : Nat) {pr ch : Process} {next : Prog} (hpr : sys.procs[i]? = some pr)
      (hstatus : pr.status = .running (.wait next)) (hch : sys.procs[child]? = some ch)
      (hdone : ch.status = .terminated) (hparent : ch.parent = some i) :
      Step sys ⟨(sys.procs.set child { ch with status := .reaped }).set i
        (pr.goOn next pr.fds), sys.nextPipe⟩

namespace System

variable {sys sys' : System} {i : Nat}

theorem step_call_eq_some {ok : Bool} {r : System × List SysEvent}
    (h : sys.step (.call i ok) = some r) :
    ∃ pr code, sys.procs[i]? = some pr ∧ pr.status = .running code ∧
      sys.call i pr ok code = some r := by
  simp only [step] at h
  split at h
  next pr hpr =>
    split at h
    next code hstatus => exact ⟨pr, code, hpr, hstatus, h⟩
    next => cases h
  next => cases h

theorem step_inversion {action : SysAction} {events : List SysEvent}
    (hstep : sys.step action = some (sys', events)) : sys.Step sys' := by
  cases action with
  | call i ok =>
      obtain ⟨pr, code, hpr, hstatus, hcall⟩ := step_call_eq_some hstep
      have hactive : pr.Active := by simp [Process.Active, hstatus]
      cases code with
      | close fd next =>
          cases hcall
          exact .goOn i hpr hstatus List.mem_cons_self rfl rfl
      | dup fd next =>
          cases hcall
          exact .goOn i hpr hstatus List.mem_cons_self rfl rfl
      | openFile file flags perm next =>
          cases hcall
          exact .goOn i hpr hstatus List.mem_cons_self rfl rfl
      | pipe next =>
          simp only [call] at hcall
          split at hcall
          · cases hcall
            exact .goOn i hpr hstatus List.mem_cons_self rfl rfl
          · cases hcall
            exact .goOn i hpr hstatus List.mem_cons_self rfl rfl
      | fork child parent =>
          simp only [call] at hcall
          split at hcall
          · cases hcall
            exact .fork i hpr hstatus
          · cases hcall
            exact .goOn i hpr hstatus (List.mem_cons_of_mem _ List.mem_cons_self) rfl rfl
      | execvp argv next =>
          cases hcall
          cases ok with
          | false => exact .goOn i hpr hstatus List.mem_cons_self rfl rfl
          | true => exact .stop i hpr hactive (by simp) rfl
      | wait next =>
          simp only [call] at hcall
          split at hcall
          · cases hcall
          · cases hcall
            exact .goOn i hpr hstatus List.mem_cons_self rfl rfl
      | exit =>
          cases hcall
          exact .stop i hpr hactive (by simp) rfl
  | reap i child =>
      simp only [step] at hstep
      split at hstep
      next pr ch hpr hch =>
        split at hstep
        next next hstatus hdone =>
          split at hstep
          next hparent =>
            cases hstep
            exact .reap i child hpr hstatus hch hdone hparent
          next => cases hstep
        next => cases hstep
      next => cases hstep
  | terminate i =>
      simp only [step] at hstep
      split at hstep
      next pr hpr =>
        split at hstep
        next argv hstatus =>
          cases hstep
          exact .stop i hpr (by simp [Process.Active, hstatus]) (by simp) rfl
        next => cases hstep
      next => cases hstep

/-- The events of a step are those of one `open` or one `execvp`. -/
theorem mem_events {action : SysAction} {events : List SysEvent} {event : SysEvent}
    (hstep : sys.step action = some (sys', events)) (hevent : event ∈ events) :
    ∃ i ok pr, action = .call i ok ∧ sys.procs[i]? = some pr ∧
      ((∃ file flags perm next fds, pr.status = .running (.openFile file flags perm next) ∧
          event = .opened i file flags perm ok ∧ sys' = sys.setProc i (pr.goOn next fds)) ∨
        ∃ argv next, pr.status = .running (.execvp argv next) ∧
          event = .execvp i argv pr.fds) := by
  cases action with
  | call i ok =>
      obtain ⟨pr, code, hpr, hstatus, hcall⟩ := step_call_eq_some hstep
      refine ⟨i, ok, pr, rfl, hpr, ?_⟩
      cases code with
      | openFile file flags perm next =>
          cases hcall
          exact .inl ⟨file, flags, perm, next, _, hstatus, List.mem_singleton.mp hevent, rfl⟩
      | execvp argv next =>
          cases hcall
          exact .inr ⟨argv, next, hstatus, List.mem_singleton.mp hevent⟩
      | close fd next => cases hcall; cases hevent
      | dup fd next => cases hcall; cases hevent
      | pipe next =>
          simp only [call] at hcall
          split at hcall <;> cases hcall <;> cases hevent
      | fork child parent =>
          simp only [call] at hcall
          split at hcall <;> cases hcall <;> cases hevent
      | wait next =>
          simp only [call] at hcall
          split at hcall <;> cases hcall
          cases hevent
      | exit => cases hcall; cases hevent
  | reap j child =>
      simp only [step] at hstep
      split at hstep
      · split at hstep
        · split at hstep <;> cases hstep
          cases hevent
        · cases hstep
      · cases hstep
  | terminate j =>
      simp only [step] at hstep
      split at hstep
      · split at hstep <;> cases hstep
        cases hevent
      · cases hstep

end System

/-! ## Processes that execute nothing any more -/

/-- The process has no `execvp` call ahead. -/
def Process.Quiet (pr : Process) : Prop := ∀ code, pr.status = .running code → code.NoExec

def System.QuietAt (sys : System) (i : Nat) : Prop := ∃ pr, sys.procs[i]? = some pr ∧ pr.Quiet

theorem Prog.NoExec.of_mem {code : Prog} (h : code.NoExec) :
    ∀ next ∈ code.continuations, next.NoExec := by
  intro next hnext
  cases code with
  | fork child parent =>
      rcases List.mem_pair.mp hnext with rfl | rfl
      · exact h.1
      · exact h.2
  | execvp argv next => exact h.elim
  | exit => cases hnext
  | _ =>
      obtain rfl := List.mem_singleton.mp hnext
      exact h

theorem System.QuietAt.noExec {sys : System} {i : Nat} {pr : Process} {code : Prog}
    (h : sys.QuietAt i) (hpr : sys.procs[i]? = some pr) (hstatus : pr.status = .running code) :
    code.NoExec := by
  obtain ⟨other, hother, hquiet⟩ := h
  rw [hpr] at hother
  cases hother
  exact hquiet code hstatus

theorem System.QuietAt.set {sys : System} {i k pipes : Nat} {pr : Process} (h : sys.QuietAt i)
    (hk : k = i → pr.Quiet) : (⟨sys.procs.set k pr, pipes⟩ : System).QuietAt i := by
  obtain ⟨other, hother, hquiet⟩ := h
  have hlt := (List.getElem?_eq_some_iff.mp hother).1
  by_cases hki : k = i
  · subst hki
    exact ⟨pr, List.getElem?_set_self hlt, hk rfl⟩
  · exact ⟨other, by rwa [List.getElem?_set_ne hki], hquiet⟩

theorem System.QuietAt.addProc {sys : System} {i : Nat} (h : sys.QuietAt i) (child : Process) :
    ({ sys with procs := sys.procs ++ [child] } : System).QuietAt i := by
  obtain ⟨pr, hpr, hquiet⟩ := h
  have hlt := (List.getElem?_eq_some_iff.mp hpr).1
  exact ⟨pr, by rwa [List.getElem?_append_left hlt], hquiet⟩

/-- A process that has no program to execute any more stays so. -/
theorem System.QuietAt.step {sys sys' : System} {i : Nat} {action : SysAction}
    {events : List SysEvent} (h : sys.QuietAt i)
    (hstep : sys.step action = some (sys', events)) : sys'.QuietAt i := by
  cases System.step_inversion hstep with
  | goOn j hpr hstatus hnext hgoes hparent =>
      refine h.set fun heq => Process.runs_of_running hgoes ?_
      exact ((heq ▸ h).noExec hpr hstatus).of_mem _ hnext
  | @fork j pr child parent hpr hstatus =>
      have hset : (⟨sys.procs.set j (pr.goOn parent pr.fds), sys.nextPipe⟩ : System).QuietAt i :=
        h.set fun heq => Process.runs_of_running rfl ((heq ▸ h).noExec hpr hstatus).2
      exact hset.addProc _
  | stop j hpr hactive hstopped hparent => exact h.set fun _ => Process.runs_of_stopped hstopped
  | @reap j child pr ch next hpr hstatus hch hdone hparent =>
      have hreaped : (⟨sys.procs.set child { ch with status := .reaped }, sys.nextPipe⟩ :
          System).QuietAt i := h.set fun _ => Process.runs_of_stopped (by simp)
      have hwait : j = i → (Prog.wait next).NoExec := fun heq => (heq ▸ h).noExec hpr hstatus
      exact hreaped.set fun heq => Process.runs_of_running rfl (hwait heq)

/-! ## Runs over a file system -/

theorem Machine.step_sys {m m' : Machine} {action : SysAction} {events : List FileEvent}
    (h : m.step (.sys action) = some (m', events)) :
    ∃ sys' made, m.admits action = true ∧ m.sys.step action = some (sys', made) ∧
      m'.sys = sys' ∧ events = made.map fun event => ⟨event, m.files⟩ := by
  simp only [Machine.step] at h
  split at h
  next hadmits =>
    obtain ⟨⟨sys', made⟩, hstep, heq⟩ := Option.map_eq_some_iff.mp h
    cases heq
    exact ⟨sys', made, hadmits, hstep, rfl, rfl⟩
  next => cases h

theorem Machine.opening_eq_some {m : Machine} {i : Nat} {pr : Process} {file : Text}
    {flags : OpenFlags} {perm : Nat} {next : Prog} (hpr : m.sys.procs[i]? = some pr)
    (hstatus : pr.status = .running (.openFile file flags perm next)) :
    m.opening i = some (file, flags, perm) := by
  simp only [Machine.opening, hpr, hstatus]

section Step

variable {m : Machine} {sys' : System} {action : SysAction} {made : List SysEvent}
  {event : SysEvent} (hsys : m.sys.step action = some (sys', made)) (hevent : event ∈ made)
include hsys hevent

theorem quietAt_of_refused (hok : opensOwn m (.sys action)) {i : Nat}
    (hrefused : FileEvent.Refused ⟨event, m.files⟩ i) : sys'.QuietAt i := by
  obtain ⟨file, flags, perm, ok, rfl, hopens⟩ := hrefused
  obtain ⟨j, ok', pr, rfl, hpr, hcall⟩ := System.mem_events hsys hevent
  rcases hcall with ⟨file', flags', perm', next, fds, hstatus, heq, rfl⟩ | ⟨argv, next, -, heq⟩
  · cases heq
    rcases hok pr hpr file flags perm next hstatus with howns | ⟨hnoExec, -⟩
    · rw [hopens] at howns
      cases howns
    · have hlt := (List.getElem?_eq_some_iff.mp hpr).1
      exact ⟨pr.goOn next fds, by simp [System.setProc, hlt],
        Process.runs_of_running rfl hnoExec⟩
  · cases heq

theorem not_createsInput (hok : opensOwn m (.sys action)) :
    ¬FileEvent.CreatesInput ⟨event, m.files⟩ := by
  rintro ⟨i, file, flags, perm, rfl, haccess, hmissing⟩
  obtain ⟨j, ok, pr, rfl, hpr, hcall⟩ := System.mem_events hsys hevent
  rcases hcall with ⟨file', flags', perm', next, fds, hstatus, heq, -⟩ | ⟨argv, next, -, heq⟩
  · cases heq
    rcases hok pr hpr file flags perm next hstatus with howns | ⟨-, hcreates⟩
    · exact not_missing_of_own howns haccess hmissing
    · exact hcreates ⟨haccess, hmissing⟩
  · cases heq

theorem not_execvp_of_quietAt {i : Nat} (hquiet : m.sys.QuietAt i) (argv : Argv) (fds : FdTable) :
    event ≠ .execvp i argv fds := by
  rintro rfl
  obtain ⟨j, ok, pr, rfl, hpr, hcall⟩ := System.mem_events hsys hevent
  rcases hcall with ⟨file, flags, perm, next, fds, -, heq, -⟩ | ⟨argv, next, hstatus, heq⟩
  · cases heq
  · cases heq
    exact hquiet.noExec hpr hstatus

/-- No step makes both an `open` and an `execvp`. -/
theorem not_execvp_of_opened {later : SysEvent} (hlater : later ∈ made) {i : Nat}
    (hrefused : FileEvent.Refused ⟨event, m.files⟩ i) (argv : Argv) (fds : FdTable) :
    later ≠ .execvp i argv fds := by
  rintro rfl
  obtain ⟨file, flags, perm, ok, rfl, -⟩ := hrefused
  obtain ⟨j, ok', pr, rfl, hpr, hcall⟩ := System.mem_events hsys hevent
  obtain ⟨k, ok'', pr', heq, hpr', hcall'⟩ := System.mem_events hsys hlater
  cases heq
  rw [hpr] at hpr'
  cases hpr'
  rcases hcall with ⟨_, _, _, _, _, hstatus, -, -⟩ | ⟨_, _, -, heq⟩
  · rcases hcall' with ⟨_, _, _, _, _, -, heq, -⟩ | ⟨_, _, hstatus', -⟩
    · cases heq
    · rw [hstatus] at hstatus'
      cases hstatus'
  · cases heq

end Step

/-- Processes whose redirection could not be opened execute nothing any more. -/
structure Silenced (history : List FileEvent) (m : Machine) : Prop where
  contained : FailureContained history
  quiet : ∀ e ∈ history, ∀ i, e.Refused i → m.sys.QuietAt i

theorem Silenced.step {history : List FileEvent} {m m' : Machine} {action : FileAction}
    {events : List FileEvent} (h : Silenced history m) (hok : opensOwn m action)
    (hstep : m.step action = some (m', events)) : Silenced (history ++ events) m' := by
  cases action with
  | change files =>
      cases hstep
      rw [List.append_nil]
      exact ⟨h.contained, h.quiet⟩
  | sys action =>
      obtain ⟨sys', made, -, hsys, rfl, rfl⟩ := Machine.step_sys hstep
      refine ⟨⟨List.pairwise_append.mpr ⟨h.contained.stops, ?_, ?_⟩, ?_⟩, ?_⟩
      · refine List.pairwise_map.mpr (List.pairwise_of_forall_mem_list ?_)
        intro event hevent later hlater i hrefused argv fds
        exact not_execvp_of_opened hsys hevent hlater hrefused argv fds
      · intro e he later hlater i hrefused argv fds
        obtain ⟨event, hevent, rfl⟩ := List.mem_map.mp hlater
        exact not_execvp_of_quietAt hsys hevent (h.quiet e he i hrefused) argv fds
      · intro e he
        rcases List.mem_append.mp he with he | he
        · exact h.contained.keepsInput e he
        · obtain ⟨event, hevent, rfl⟩ := List.mem_map.mp he
          exact not_createsInput hsys hevent hok
      · intro e he i hrefused
        rcases List.mem_append.mp he with he | he
        · exact (h.quiet e he i hrefused).step hsys
        · obtain ⟨event, hevent, rfl⟩ := List.mem_map.mp he
          exact quietAt_of_refused hsys hevent hok hrefused

/-- When its files are opened, a stage that executes a program loses no call. -/
theorem mayFail_of_opensMade {m m' : Machine} {action : SysAction} {events : List FileEvent}
    (hok : opensMade m (.sys action)) (hpipes : pipesSucceed m (.sys action))
    (hstep : m.step (.sys action) = some (m', events)) :
    ∃ action', failsOnly Prog.MayFail m.sys action' ∧
      m.sys.step action' = some (m'.sys, events.map FileEvent.event) := by
  obtain ⟨sys', made, hadmits, hsys, rfl, rfl⟩ := Machine.step_sys hstep
  have hmade : (made.map fun event => (⟨event, m.files⟩ : FileEvent)).map FileEvent.event =
      made := by
    rw [List.map_map]
    exact List.map_id made
  rw [hmade]
  cases action with
  | call i ok =>
      obtain ⟨pr, code, hpr, hstatus, hcall⟩ := System.step_call_eq_some hsys
      -- the result of the other calls makes no difference
      have hsame : m.sys.call i pr true code = m.sys.call i pr ok code → ∃ action',
          failsOnly Prog.MayFail m.sys action' ∧ m.sys.step action' = some (m'.sys, made) := by
        intro heq
        refine ⟨.call i true, .inl rfl, ?_⟩
        simp only [System.step, hpr, hstatus, heq, hcall]
      have hfails : code.MayFail → ∃ action', failsOnly Prog.MayFail m.sys action' ∧
          m.sys.step action' = some (m'.sys, made) :=
        fun hmay => ⟨.call i ok, .inr ⟨pr, hpr, code, hstatus, hmay⟩, hsys⟩
      cases code with
      | openFile file flags perm next =>
          simp only [Machine.admits, Machine.opening_eq_some hpr hstatus, decide_eq_true_eq]
            at hadmits
          rcases hok pr hpr file flags perm next hstatus with hopens | hnoExec
          · rw [hadmits, hopens] at hsys
            exact ⟨.call i true, .inl rfl, hsys⟩
          · exact hfails hnoExec
      | fork child parent => exact hfails trivial
      | execvp argv next => exact hfails trivial
      | pipe next => exact hsame (by rw [hpipes pr hpr next hstatus])
      | close fd next => exact hsame rfl
      | dup fd next => exact hsame rfl
      | wait next => exact hsame rfl
      | exit => exact hsame rfl
  | reap i child => exact ⟨.reap i child, trivial, hsys⟩
  | terminate i => exact ⟨.terminate i, trivial, hsys⟩

theorem boundCall_of_callOf {stage : Stage} {call : ExecCall} (h : CallOf List.head? stage call) :
    BoundCall stage call := by
  refine ⟨h.argv, ?_⟩
  intro type hfiles
  obtain ⟨file, rest, hcons⟩ := List.exists_cons_of_ne_nil hfiles
  refine ⟨file, hcons ▸ List.mem_cons_self, h.redirected type file ?_⟩
  rw [hcons]
  rfl

/-- Failures are contained in every run that makes redirections only to files that can
be opened in the redirection's own mode. If they can also be opened with `O_CREAT`,
descriptor 0 is open at the start and every `pipe` succeeds, programs are executed with
the files their stages name. -/
theorem runcmd_contains_failures (s : CString) (tree : Cmd) (hparse : parsecmd s = .ok tree)
    (p : Nat × Nat) (fds : FdTable) (n : Nat) (files : Files) (umask : Nat) :
    ∃ stages, Derives (tokens s.1) stages ∧ tree = pipelineTree stages ∧
      (∀ history m,
        Reach Machine.step opensOwn ⟨startCmd tree p fds n, files, umask⟩ history m →
        FailureContained history) ∧
      (fds.get 0 ≠ none → ∀ history m,
        Reach Machine.step (fun m action => opensMade m action ∧ pipesSucceed m action)
          ⟨startCmd tree p fds n, files, umask⟩ history m →
        ∃ ran, List.Subperm ran stages ∧
          List.Forall₂ BoundCall ran (execCalls (history.map FileEvent.event))) := by
  obtain ⟨stages, hderives, rfl⟩ := (parsecmd_ok_iff s tree).mp hparse
  refine ⟨stages, hderives, rfl, ?_, ?_⟩
  · intro history m hreach
    have hsilenced : Silenced history m := by
      refine hreach.invariant ⟨⟨.nil, by simp⟩, by simp⟩ ?_
      exact fun _ _ _ _ _ hinv hok hstep => hinv.step hok hstep
    exact hsilenced.contained
  · intro hzero history m hreach
    have hsys : Reach System.step (failsOnly Prog.MayFail)
        (startCmd (pipelineTree stages) p fds n) (history.map FileEvent.event) m.sys := by
      refine hreach.simulate Machine.sys FileEvent.event ?_
      intro m action m' events hok hstep
      cases action with
      | change files =>
          cases hstep
          exact .inl ⟨rfl, rfl⟩
      | sys action => exact .inr (mayFail_of_opensMade hok.1 hok.2 hstep)
    obtain ⟨ran, hran, hcalls⟩ := exists_callers_of_reach hderives.ne_nil p hzero n hsys
    exact ⟨ran, hran, hcalls.imp fun _ _ => boundCall_of_callOf⟩

/-- `a<f`. -/
def inputOnly : CString := ⟨[97, 60, 102], by decide⟩

/-- No file exists, and every file can be created. -/
def noFiles : Files := fun _ => .missing true

/-- The shell's process about to run `a<f`. -/
def inputOnlyStart : Machine where
  sys := startCmd (pipelineTree [[.word [97], .redir .input [102]]]) (0, 0) terminalFds 0
  files := noFiles
  umask := 18

theorem runcmd_contains_failures_inputOnly :
    ∃ stages, Derives (tokens inputOnly.1) stages ∧
      pipelineTree [[.word [97], .redir .input [102]]] = pipelineTree stages ∧
      (∀ history m, Reach Machine.step opensOwn inputOnlyStart history m →
        FailureContained history) ∧
      ∀ history m, Reach Machine.step (fun m action => opensMade m action ∧ pipesSucceed m action)
          inputOnlyStart history m →
        ∃ ran, List.Subperm ran stages ∧
          List.Forall₂ BoundCall ran (execCalls (history.map FileEvent.event)) := by
  obtain ⟨stages, hderives, htree, hcontained, hbound⟩ := runcmd_contains_failures inputOnly
    (pipelineTree [[.word [97], .redir .input [102]]]) (by decide) (0, 0) terminalFds 0 noFiles 18
  exact ⟨stages, hderives, htree, hcontained, hbound (by decide)⟩

/-- `open` creates `f`, and `a` is executed. -/
def inputOnlyHistory : List FileEvent :=
  [⟨.opened 0 [102] ⟨.rdonly, true, false⟩ 777 true, noFiles⟩,
    ⟨.execvp 0 (argvOf [[97]])
      ⟨[some (Direction.input.open [102]), some (.inherited 0), some (.inherited 0)]⟩,
      Function.update noFiles [102] (.created 18 777)⟩]

/-- `a<f` with `f` missing creates `f` and executes `a`. -/
theorem inputOnly_not_contained :
    parsecmd inputOnly = .ok (pipelineTree [[.word [97], .redir .input [102]]]) ∧
      (∃ m, Reach Machine.step anyStep inputOnlyStart inputOnlyHistory m) ∧
      ¬FailureContained inputOnlyHistory := by
  refine ⟨by decide, ?_, ?_⟩
  · have hevents : (run Machine.step inputOnlyStart
        (List.replicate 3 (.sys (.call 0 true)))).map Prod.snd = some inputOnlyHistory := rfl
    obtain ⟨⟨m, history⟩, hrun, rfl⟩ := Option.map_eq_some_iff.mp hevents
    exact ⟨m, Reach.append_run .start _ (admitted_anyStep _ _) hrun⟩
  · intro hcontained
    have hstops := (List.pairwise_cons.mp hcontained.stops).1 _ List.mem_cons_self 0
    exact hstops ⟨_, _, _, _, rfl, rfl⟩ _ _ rfl

end OsCourse.Shell
