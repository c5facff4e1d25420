import OsCourse.Shell.Session

/-! # Files that the shell creates

`runcmd` creates a missing file with the mode 777 in decimal, which leaves its
owner the right to read and not the right to write. In a session over files that
are missing at the start, a redirection then finds a file that it may open, unless
it is to write a file that an earlier redirection has created.
-/

namespace OsCourse.Shell

open Transition

variable {Dir File : Type*}

/-- Every `open` of a history succeeded. -/
def OpensSucceed (history : List (SessionEvent Dir)) : Prop :=
  ∀ i name flags perm ok dir,
    .process (.opened i name flags perm ok) dir ∈ history → ok = true

/-- The event opens the file, whatever the name. -/
def SessionEvent.Opens (naming : Naming Dir File) (e : SessionEvent Dir) (file : File) : Prop :=
  ∃ i name flags perm ok dir, e = .process (.opened i name flags perm ok) dir ∧
    naming.locate dir name = file

/-- The event opens the file to write it. -/
def SessionEvent.Writes (naming : Naming Dir File) (e : SessionEvent Dir) (file : File) : Prop :=
  ∃ i name flags perm ok dir, e = .process (.opened i name flags perm ok) dir ∧
    naming.locate dir name = file ∧ flags.access = .wronly

/-- No file is opened to be written after it was opened before. -/
def NoReopening (naming : Naming Dir File) (history : List (SessionEvent Dir)) : Prop :=
  history.Pairwise fun e later => ∀ file, e.Opens naming file → ¬ later.Writes naming file

/-- The files are changed by the redirections alone: the programs that are executed,
and everybody else, leave them as they are. -/
def passive (_ : Session Dir File) : SharedAction File → Prop
  | .session (.change _) => False
  | _ => True

/-! ## The code of the processes -/

section Continuations

variable {P : Prog → Prop} {sys sys' : System}

theorem runs_set {procs : List Process} (h : ∀ pr ∈ procs, pr.Runs P) (i : Nat) {new : Process}
    (hnew : new.Runs P) : ∀ pr ∈ procs.set i new, pr.Runs P := by
  intro pr hpr
  rcases List.mem_or_eq_of_mem_set hpr with hmem | rfl
  · exact h pr hmem
  · exact hnew

/-- A property of code that passes on to what comes after a call is kept. -/
theorem System.step_runs (hP : ∀ code, P code → ∀ next ∈ code.continuations, P next)
    (h : ∀ pr ∈ sys.procs, pr.Runs P) {action : SysAction} {events : List SysEvent}
    (hstep : sys.step action = some (sys', events)) : ∀ pr ∈ sys'.procs, pr.Runs P := by
  have hcode : ∀ {i : Nat} {pr : Process} {code next : Prog}, sys.procs[i]? = some pr →
      pr.status = .running code → next ∈ code.continuations → P next :=
    fun hpr hstatus hnext => hP _ (h _ (List.mem_of_getElem? hpr) _ hstatus) _ hnext
  cases System.step_inversion hstep with
  | goOn i hpr hstatus hnext hgoes hparent =>
      exact runs_set h i (Process.runs_of_running hgoes (hcode hpr hstatus hnext))
  | fork i hpr hstatus =>
      have hparent := hcode hpr hstatus (List.mem_cons_of_mem _ List.mem_cons_self)
      intro other hother
      rcases List.mem_append.mp hother with hmem | hmem
      · exact runs_set h i (Process.runs_of_running rfl hparent) other hmem
      · rw [List.mem_singleton.mp hmem]
        exact Process.runs_of_running rfl (hcode hpr hstatus List.mem_cons_self)
  | stop i hpr hactive hstopped hparent => exact runs_set h i (Process.runs_of_stopped hstopped)
  | reap i child hpr hstatus hch hdone hparent =>
      refine runs_set (runs_set h child (Process.runs_of_stopped (by simp))) i ?_
      exact Process.runs_of_running rfl (hcode hpr hstatus List.mem_cons_self)

end Continuations

/-- Files are opened with `O_CREAT` and the mode 777. -/
def Prog.OpensCreate : Prog → Prop
  | .openFile _ flags perm next => flags.creat = true ∧ perm = 777 ∧ next.OpensCreate
  | .close _ next | .dup _ next | .pipe next | .execvp _ next | .wait next => next.OpensCreate
  | .fork child parent => child.OpensCreate ∧ parent.OpensCreate
  | .exit => True

theorem Prog.OpensCreate.of_mem (code : Prog) (h : code.OpensCreate) :
    ∀ next ∈ code.continuations, next.OpensCreate := by
  intro next hnext
  cases code with
  | fork child parent =>
      rcases List.mem_pair.mp hnext with rfl | rfl
      · exact h.1
      · exact h.2
  | openFile file flags perm next' =>
      obtain rfl := List.mem_singleton.mp hnext
      exact h.2.2
  | exit => cases hnext
  | _ =>
      obtain rfl := List.mem_singleton.mp hnext
      exact h

theorem runcmd_opensCreate (cmd : Cmd) (next : Prog) : (runcmd cmd next).OpensCreate := by
  induction cmd generalizing next with
  | exec argv =>
      rw [runcmd]
      split <;> trivial
  | redir type cmd file mode fd ih => exact ⟨rfl, rfl, ih .exit⟩
  | pipe left right ihl ihr => exact ⟨ihl .exit, ihr _⟩

theorem childCode_opensCreate (line : CString) : (childCode line).OpensCreate := by
  unfold childCode
  split
  · exact runcmd_opensCreate _ _
  · trivial

/-! ## The files of a session -/

section Files

variable [DecidableEq File] {naming : Naming Dir File} {s : Session Dir File}

/-- A process makes one `open`, or leaves the files alone. -/
theorem Session.process_files {action : SysAction} {sys' : System} {made : List SysEvent}
    (hadmits : (s.machine naming action.process).admits action = true)
    (hsys : s.sys.step action = some (sys', made)) :
    (∃ i pr name flags perm next, s.procs[i]? = some pr ∧
        pr.status = .running (.openFile name flags perm next) ∧ action.process = i ∧
        made = [.opened i name flags perm
          ((s.files (naming.locate (s.dir i) name)).opens flags)] ∧
        s.filesAfter naming action = Function.update s.files (naming.locate (s.dir i) name)
          ((s.files (naming.locate (s.dir i) name)).afterOpen s.umask flags perm)) ∨
      s.filesAfter naming action = s.files ∧
        ∀ i name flags perm ok, .opened i name flags perm ok ∉ made := by
  by_cases hopen : ∃ i ok pr name flags perm next, action = .call i ok ∧
      s.procs[i]? = some pr ∧ pr.status = .running (.openFile name flags perm next)
  · obtain ⟨i, ok, pr, name, flags, perm, next, rfl, hpr, hstatus⟩ := hopen
    have hpr' : s.sys.procs[i]? = some pr := hpr
    have hopening : (s.machine naming i).opening i = some (name, flags, perm) :=
      Machine.opening_eq_some hpr' hstatus
    simp only [Machine.admits, SysAction.process, hopening] at hadmits
    have hok := of_decide_eq_true hadmits
    simp only [System.step, hpr', hstatus, System.call, Option.some.injEq, Prod.mk.injEq] at hsys
    refine .inl ⟨i, pr, name, flags, perm, next, hpr, hstatus, rfl, ?_, ?_⟩
    · rw [← hsys.2, hok]
      rfl
    · simp only [Session.filesAfter, hopening]
  · refine .inr ⟨?_, ?_⟩
    · cases action with
      | call i ok =>
          have hnone : (s.machine naming i).opening i = none := by
            unfold Machine.opening
            split
            next pr hpr =>
              split
              next name flags perm next hstatus =>
                exact absurd ⟨i, ok, pr, name, flags, perm, next, rfl, hpr, hstatus⟩ hopen
              next => rfl
            next => rfl
          simp only [Session.filesAfter, hnone]
      | reap i child => rfl
      | terminate i => rfl
    · intro i name flags perm ok hmade
      obtain ⟨j, ok', pr, rfl, hpr, hcall⟩ := System.mem_events hsys hmade
      rcases hcall with ⟨_, _, _, _, _, hstatus, -, -⟩ | ⟨_, _, -, hexec⟩
      · exact hopen ⟨j, ok', pr, _, _, _, _, rfl, hpr, hstatus⟩
      · cases hexec

end Files

/-- The files of a session are those it has created, and else those at its start. -/
structure Recorded (naming : Naming Dir File) (files : File → Entry) (umask : Nat)
    (history : List (SessionEvent Dir)) (s : Session Dir File) : Prop where
  code : ∀ pr ∈ s.procs, pr.Runs Prog.OpensCreate
  sameUmask : s.umask = umask
  created : ∀ file, files file = .missing true → (∃ e ∈ history, e.Opens naming file) →
    s.files file = .created umask 777
  missing : ∀ file, (∀ e ∈ history, ¬ e.Opens naming file) → s.files file = files file

section Recorded

variable {naming : Naming Dir File} {files : File → Entry} {umask : Nat}
  {history : List (SessionEvent Dir)} {s : Session Dir File}

/-- Nothing is opened. -/
theorem Recorded.silent (h : Recorded naming files umask history s) {t : Session Dir File}
    {events : List (SessionEvent Dir)} (hcode : ∀ pr ∈ t.procs, pr.Runs Prog.OpensCreate)
    (humask : t.umask = s.umask) (hfiles : t.files = s.files)
    (hevents : ∀ e ∈ events, ∀ file, ¬ e.Opens naming file) :
    Recorded naming files umask (history ++ events) t := by
  refine ⟨hcode, humask.trans h.sameUmask, ?_, ?_⟩
  · rintro file hmissing ⟨e, he, hopens⟩
    rw [hfiles]
    rcases List.mem_append.mp he with hold | hnew
    · exact h.created file hmissing ⟨e, hold, hopens⟩
    · exact absurd hopens (hevents e hnew file)
  · intro file hnone
    rw [hfiles]
    exact h.missing file fun e he => hnone e (List.mem_append_left _ he)

theorem SessionEvent.opens_iff {i : Nat} {name : Text} {flags : OpenFlags} {perm : Nat} {ok : Bool}
    {dir : Dir} {file : File} :
    SessionEvent.Opens naming (.process (.opened i name flags perm ok) dir) file ↔
      naming.locate dir name = file := by
  constructor
  · rintro ⟨_, _, _, _, _, _, heq, hfile⟩
    cases heq
    exact hfile
  · exact fun hfile => ⟨i, name, flags, perm, ok, dir, rfl, hfile⟩

/-- Reading a line opens nothing. -/
theorem not_opens_of_reads : ∀ e ∈ s.reads, ∀ file, ¬ e.Opens naming file := by
  rintro e he file ⟨_, _, _, _, _, _, rfl, -⟩
  unfold Session.reads at he
  split at he <;> simp at he

theorem not_opens_of_moved :
    ∀ e ∈ ([.moved] : List (SessionEvent Dir)), ∀ file, ¬ e.Opens naming file := by
  rintro e he file ⟨_, _, _, _, _, _, rfl, -⟩
  simp at he

variable [DecidableEq File]

/-- A file that is opened exists afterwards. -/
theorem Recorded.opened (h : Recorded naming files umask history s) {t : Session Dir File}
    {i : Nat} {name : Text} {flags : OpenFlags} {perm : Nat} {ok : Bool} {dir : Dir}
    (hcreat : flags.creat = true) (hperm : perm = 777)
    (hcode : ∀ pr ∈ t.procs, pr.Runs Prog.OpensCreate) (humask : t.umask = s.umask)
    (hfiles : t.files = Function.update s.files (naming.locate dir name)
      ((s.files (naming.locate dir name)).afterOpen s.umask flags perm)) :
    Recorded naming files umask (history ++ [.process (.opened i name flags perm ok) dir]) t := by
  refine ⟨hcode, humask.trans h.sameUmask, ?_, ?_⟩
  · rintro file hmissing ⟨e, he, hopens⟩
    rw [hfiles, h.sameUmask, hperm]
    by_cases hname : naming.locate dir name = file
    · subst hname
      rw [Function.update_self]
      by_cases hbefore : ∃ e ∈ history, e.Opens naming (naming.locate dir name)
      · rw [h.created _ hmissing hbefore]
        rfl
      · push Not at hbefore
        rw [h.missing _ hbefore, hmissing]
        exact if_pos hcreat
    · rw [Function.update_of_ne (Ne.symm hname)]
      rcases List.mem_append.mp he with hold | hnew
      · exact h.created file hmissing ⟨e, hold, hopens⟩
      · rw [List.mem_singleton.mp hnew, SessionEvent.opens_iff] at hopens
        exact absurd hopens hname
  · intro file hnone
    have hname : naming.locate dir name ≠ file := fun heq =>
      hnone _ (List.mem_append_right _ List.mem_cons_self) (SessionEvent.opens_iff.mpr heq)
    rw [hfiles, Function.update_of_ne (Ne.symm hname)]
    exact h.missing file fun e he => hnone e (List.mem_append_left _ he)

theorem Recorded.step (h : Recorded naming files umask history s) {t : Session Dir File}
    {action : SharedAction File} {events : List (SessionEvent Dir)} (hok : passive s action)
    (hstep : s.SharedStep naming action t events) :
    Recorded naming files umask (history ++ events) t := by
  cases hstep with
  | stdin input => exact h.silent h.code rfl rfl not_opens_of_moved
  | session hstep =>
      cases hstep with
      | getcmd main rest cwd hmain hread => exact h.silent h.code rfl rfl not_opens_of_reads
      | fork line p dir hmain =>
          refine h.silent ?_ rfl rfl (by simp)
          intro pr hpr
          rcases List.mem_append.mp hpr with hmem | hmem
          · exact h.code pr hmem
          · rw [List.mem_singleton.mp hmem]
            exact Process.runs_of_running rfl (childCode_opensCreate line)
      | forkFails line p hmain => exact h.silent h.code rfl rfl (by simp)
      | reap child ch hmain hch hparent hstatus =>
          have hreaped : Process.Runs Prog.OpensCreate { ch with status := .reaped } :=
            Process.runs_of_stopped (by simp)
          exact h.silent (runs_set h.code child hreaped) rfl rfl (by simp)
      | waitFails hmain hreaped => exact h.silent h.code rfl rfl (by simp)
      | process action sys made dir hadmits hsys =>
          have hcode : ∀ pr ∈ sys.procs, pr.Runs Prog.OpensCreate :=
            System.step_runs Prog.OpensCreate.of_mem h.code hsys
          rcases Session.process_files hadmits hsys with
            ⟨i, pr, name, flags, perm, next, hpr, hstatus, hi, rfl, hfiles⟩ | ⟨hfiles, hnone⟩
          · obtain ⟨hcreat, hperm, -⟩ := h.code pr (List.mem_of_getElem? hpr) _ hstatus
            rw [hi]
            exact h.opened hcreat hperm hcode rfl hfiles
          · refine h.silent hcode rfl hfiles ?_
            rintro e he file ⟨i, name, flags, perm, ok, dir, rfl, -⟩
            obtain ⟨event, hmade, heq⟩ := List.mem_map.mp he
            cases heq
            exact hnone i name flags perm ok hmade
      | change files => exact hok.elim

omit [DecidableEq File] in
/-- An `open` succeeds unless it is to write a file that was opened before. -/
theorem Recorded.opens_iff (h : Recorded naming files umask history s)
    (humask : umask.testBit 8 = false) {file : File} (hmissing : files file = .missing true)
    {flags : OpenFlags} (hcreat : flags.creat = true) :
    (s.files file).opens flags = true ↔
      ∀ e ∈ history, e.Opens naming file → flags.access ≠ .wronly := by
  have hcreated : Entry.created umask 777 = .file true false := by
    have hread : Nat.testBit 777 8 = true := by decide
    have hwrite : Nat.testBit 777 7 = false := by decide
    rw [Entry.created, hread, hwrite, humask]
    rfl
  by_cases hbefore : ∃ e ∈ history, e.Opens naming file
  · obtain ⟨e, he, hopens⟩ := hbefore
    rw [h.created file hmissing ⟨e, he, hopens⟩, hcreated]
    cases haccess : flags.access with
    | rdonly => simp [Entry.opens, Access.permits, haccess]
    | wronly =>
        simp only [Entry.opens, haccess]
        constructor
        · intro hfalse
          cases hfalse
        · exact fun hall => absurd rfl (hall e he hopens)
  · push Not at hbefore
    rw [h.missing file hbefore, hmissing]
    simp only [Entry.opens, hcreat, Bool.and_self, true_iff]
    exact fun e he hopens => absurd hopens (hbefore e he)

theorem recorded_of_reach {input : Text} {fds : FdTable} {cwd : Dir}
    (hreach : Reach (Session.sharedStep naming) passive (Session.start input fds cwd files umask)
      history s) : Recorded naming files umask history s := by
  have hstart : Recorded naming files umask [] (Session.start input fds cwd files umask) := by
    refine ⟨?_, rfl, ?_, fun file _ => rfl⟩
    · exact fun pr hpr => absurd hpr List.not_mem_nil
    · rintro file - ⟨e, he, -⟩
      exact absurd he List.not_mem_nil
  exact hreach.invariant hstart fun _ _ _ _ _ hinv hok hstep =>
    hinv.step hok (Session.sharedStep_inversion hstep)

end Recorded

/-! ## Runs -/

theorem opensSucceed_append {history events : List (SessionEvent Dir)} :
    OpensSucceed (history ++ events) ↔ OpensSucceed history ∧ OpensSucceed events := by
  simp only [OpensSucceed, List.mem_append, or_imp, forall_and]

section Runs

variable {naming : Naming Dir File}

theorem noReopening_append {history events : List (SessionEvent Dir)} :
    NoReopening naming (history ++ events) ↔
      NoReopening naming history ∧ NoReopening naming events ∧
        ∀ e ∈ history, ∀ later ∈ events, ∀ file, e.Opens naming file →
          ¬ later.Writes naming file :=
  List.pairwise_append

/-- Events that open nothing. -/
theorem silent_events {history events : List (SessionEvent Dir)}
    (h : ∀ e ∈ events, ∀ file, ¬ e.Opens naming file) :
    NoReopening naming events ∧ (OpensSucceed events ↔
      ∀ e ∈ history, ∀ later ∈ events, ∀ file, e.Opens naming file →
        ¬ later.Writes naming file) := by
  have hsucceed : OpensSucceed events := by
    intro i name flags perm ok dir he
    exact absurd (SessionEvent.opens_iff.mpr rfl) (h _ he (naming.locate dir name))
  have hwrites : ∀ e ∈ events, ∀ file, ¬ e.Writes naming file := by
    rintro e he file ⟨i, name, flags, perm, ok, dir, rfl, hfile, -⟩
    exact h _ he file (SessionEvent.opens_iff.mpr hfile)
  refine ⟨?_, fun _ e _ later hlater file _ => hwrites later hlater file, fun _ => hsucceed⟩
  refine List.pairwise_of_forall_mem_list fun e he later _ file hopens => ?_
  exact absurd hopens (h e he file)

variable [DecidableEq File]

/-- The events of one step leave the files right, or open what was opened. -/
theorem Recorded.step_iff {files : File → Entry} {umask : Nat}
    {history events : List (SessionEvent Dir)} {s t : Session Dir File}
    (h : Recorded naming files umask history s) (humask : umask.testBit 8 = false)
    {action : SharedAction File} (hstep : s.SharedStep naming action t events)
    (hmissing : ∀ e ∈ events, ∀ file, e.Opens naming file → files file = .missing true) :
    NoReopening naming events ∧ (OpensSucceed events ↔
      ∀ e ∈ history, ∀ later ∈ events, ∀ file, e.Opens naming file →
        ¬ later.Writes naming file) := by
  cases hstep with
  | stdin input => exact silent_events not_opens_of_moved
  | session hstep =>
      cases hstep with
      | process action sys made dir hadmits hsys =>
          rcases Session.process_files hadmits hsys with
            ⟨i, pr, name, flags, perm, next, hpr, hstatus, rfl, rfl, -⟩ | ⟨-, hnone⟩
          · obtain ⟨hcreat, -, -⟩ := h.code pr (List.mem_of_getElem? hpr) _ hstatus
            have hfile := hmissing _ List.mem_cons_self _ (SessionEvent.opens_iff.mpr rfl)
            have hopen := h.opens_iff humask hfile hcreat
            refine ⟨List.pairwise_singleton _ _, ?_, ?_⟩
            · rintro hsucceeds e he later hlater file hopens ⟨_, _, _, _, _, _, rfl, rfl, hwrites⟩
              cases List.mem_singleton.mp hlater
              have hok := hsucceeds _ name flags perm _ _ List.mem_cons_self
              exact hopen.mp hok e he hopens hwrites
            · intro hfresh _ _ _ _ _ _ he
              cases List.mem_singleton.mp he
              refine hopen.mpr fun e he hopens hwrites => ?_
              exact hfresh e he _ List.mem_cons_self _ hopens ⟨_, _, _, _, _, _, rfl, rfl, hwrites⟩
          · refine silent_events ?_
            rintro e he file ⟨i, name, flags, perm, ok, dir, rfl, -⟩
            obtain ⟨event, hmade, heq⟩ := List.mem_map.mp he
            cases heq
            exact hnone i name flags perm ok hmade
      | getcmd main rest cwd hmain hread => exact silent_events not_opens_of_reads
      | _ => exact silent_events (by simp)

/-- In a session over files that are missing at the start and can be created, and that
nobody else changes, all redirections made so far could be opened exactly when none of
them was to write a file that had been opened before. -/
theorem opensSucceed_iff_noReopening {input : Text} {fds : FdTable} {cwd : Dir}
    {files : File → Entry} {umask : Nat} (humask : umask.testBit 8 = false)
    {history : List (SessionEvent Dir)} {s : Session Dir File}
    (hreach : Reach (Session.sharedStep naming) passive (Session.start input fds cwd files umask)
      history s)
    (hmissing : ∀ e ∈ history, ∀ file, e.Opens naming file → files file = .missing true) :
    OpensSucceed history ↔ NoReopening naming history := by
  induction hreach with
  | start => exact ⟨fun _ => .nil, fun _ _ _ _ _ _ _ he => absurd he List.not_mem_nil⟩
  | step hprior hok hstep ih =>
      have hbefore := ih fun e he => hmissing e (List.mem_append_left _ he)
      obtain ⟨hpairs, hnow⟩ := (recorded_of_reach hprior).step_iff humask
        (Session.sharedStep_inversion hstep) fun e he => hmissing e (List.mem_append_right _ he)
      rw [opensSucceed_append, noReopening_append, hbefore, hnow, and_iff_right hpairs]

end Runs

/-- `a>f` and a newline, once and twice. -/
def outputOnce : Text := [97, 62, 102, 10]
def outputTwice : Text := outputOnce ++ outputOnce

/-- A line with one redirection, from `getcmd` to the `open` of process `i`. -/
def openLine (i : Nat) (ok : Bool) : List (SharedAction File) :=
  [.session .getcmd, .session (.fork true (0, 0)), .session (.process (.call i true)),
    .session (.process (.call i ok))]

/-- The events of such a line. -/
def outputEvents (i : Nat) (ok : Bool) : List (SessionEvent Text) :=
  [.read outputOnce, .process (.opened i [102] ⟨.wronly, true, true⟩ 777 ok) []]

theorem opensSucceed_iff_noReopening_outputOnce :
    ∃ s, Reach (Session.sharedStep plainNames) passive
        (Session.start outputOnce terminalFds [] noFiles 18) (outputEvents 0 true) s ∧
      (OpensSucceed (outputEvents 0 true) ↔ NoReopening plainNames (outputEvents 0 true)) := by
  have hevents : (run (Session.sharedStep plainNames)
      (Session.start outputOnce terminalFds [] noFiles 18) (openLine 0 true)).map Prod.snd =
        some (outputEvents 0 true) := rfl
  obtain ⟨⟨s, history⟩, hrun, rfl⟩ := Option.map_eq_some_iff.mp hevents
  have hpassive : ∀ s : Session Text Text, ∀ a ∈ openLine 0 true, passive s a := by
    simp [openLine, passive]
  have hreach := Reach.append_run .start _ (admitted_of_forall hpassive _) hrun
  exact ⟨s, hreach, opensSucceed_iff_noReopening (by decide) hreach fun _ _ _ _ => rfl⟩

/-- Two lines `a>f`, the program of the first done before the second. -/
def outputTwiceRun : List (SharedAction File) :=
  openLine 0 true ++ [.session (.process (.call 0 true)), .session (.process (.terminate 0)),
    .session (.reap 0)] ++ openLine 1 false

/-- The second `a>f` finds `f` and may not write it. -/
theorem outputTwice_refused :
    ∃ history s, Reach (Session.sharedStep plainNames) passive
        (Session.start outputTwice terminalFds [] noFiles 18) history s ∧
      ¬ OpensSucceed history := by
  have hevents : (run (Session.sharedStep plainNames)
      (Session.start outputTwice terminalFds [] noFiles 18) outputTwiceRun).map Prod.snd =
        some (outputEvents 0 true ++ [.process (.execvp 0 (argvOf [[97]])
          ⟨[some (.inherited 0), some (Direction.output.open [102]), some (.inherited 0)]⟩) []] ++
            outputEvents 1 false) := rfl
  obtain ⟨⟨s, history⟩, hrun, rfl⟩ := Option.map_eq_some_iff.mp hevents
  have hpassive : ∀ s : Session Text Text, ∀ a ∈ outputTwiceRun, passive s a := by
    simp [outputTwiceRun, openLine, passive]
  refine ⟨_, s, Reach.append_run .start _ (admitted_of_forall hpassive _) hrun,
    fun hsucceed => ?_⟩
  cases hsucceed 1 [102] ⟨.wronly, true, true⟩ 777 false [] (by simp [outputEvents])

end OsCourse.Shell
