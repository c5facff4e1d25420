import OsCourse.Shell.Files
import OsCourse.Shell.Main
import OsCourse.Shell.Printer

/-! # A session of the shell

`main` and the processes it starts, together. For each command line `main` forks a
child that parses and runs it, and waits for one child. The processes of `runcmd`
go on by themselves; what has replaced its image may terminate at any time. Every
process names files from its working directory, which `cd ` changes for `main` and
which a child takes over from its parent. In `Session.step` the input is read by `main`
alone; in `Session.sharedStep` the other processes move its offset as well.
-/

namespace OsCourse.Shell

open CBuffer Transition

/-- Where `main` is in its loop. -/
inductive MainPhase
  | getcmd
  | fork (line : CString)
  | wait
  | exited
  deriving DecidableEq

/-- The string in the buffer. -/
def commandLine (buf : CmdBuffer) : Option CString :=
  match h : getString buf with
  | some line => some ⟨line, nulFree_of_stringOf h⟩
  | none => none

/-- `getcmd` and the code up to the next fork or the next `getcmd`. -/
def readCmd (input : Text) : Option (MainPhase × Text) :=
  (getcmd input).bind fun (status, buf, rest) =>
    if status < 0 then some (.exited, rest)
    else if isCd buf then (chop buf).map fun _ => (.getcmd, rest)
    else (commandLine buf).map fun line => (.fork line, rest)

/-- `runcmd(parsecmd(buf))`. The parser exits on an error. -/
def childCode (line : CString) : Prog :=
  match parsecmd line with
  | .ok tree => runcmd tree .exit
  | .error _ => .exit

/-- The argument of `chdir`, when the next line is one for it. -/
def chdirPath (input : Text) : Option Text :=
  (getcmd input).bind fun (status, buf, _) =>
    if status < 0 then none
    else if isCd buf then (chop buf).bind fun buf => stringOf (buf.toList.drop 3)
    else none

/-- How names are resolved from a working directory: where `chdir` leads, if it
succeeds, and which file a name stands for. -/
structure Naming (Dir File : Type*) where
  chdir : Dir → Text → Option Dir
  locate : Dir → Text → File

/-- The working directory of `main` when it has read the next line. -/
def Naming.cwdAfter {Dir File : Type*} (naming : Naming Dir File) (cwd : Dir) (input : Text) :
    Dir :=
  match chdirPath input with
  | some path => (naming.chdir cwd path).getD cwd
  | none => cwd

/-- `main` with the input it has not read, its descriptors and its working directory;
the processes and theirs; and the files. A process forked by `main` has no parent among
the processes. -/
structure Session (Dir File : Type*) where
  input : Text
  main : MainPhase
  fds : FdTable
  cwd : Dir
  sys : System
  dir : Nat → Dir
  files : File → Entry
  umask : Nat

/-- The process that acts. -/
def SysAction.process : SysAction → Nat
  | .call i _ | .reap i _ | .terminate i => i

inductive SessionAction (File : Type*)
  | getcmd
  | fork (ok : Bool) (p : Nat × Nat)
  | reap (child : Nat)
  | waitFails
  | process (action : SysAction)
  /-- A program that is executed, or anybody else, changes the files. -/
  | change (files : File → Entry)

inductive SessionEvent (Dir : Type*)
  /-- `fgets` takes a piece of the input. -/
  | read (piece : Text)
  /-- Another process has moved the offset of the input. -/
  | moved
  /-- A call of a process with its working directory. -/
  | process (event : SysEvent) (dir : Dir)
  deriving DecidableEq

variable {Dir File : Type*}

namespace Session

def procs (s : Session Dir File) : List Process := s.sys.procs

def withProcs (s : Session Dir File) (procs : List Process) : Session Dir File :=
  { s with sys := { s.sys with procs := procs } }

/-- A session about to read its first line. -/
def start (input : Text) (fds : FdTable) (cwd : Dir) (files : File → Entry) (umask : Nat) :
    Session Dir File where
  input := input
  main := .getcmd
  fds := fds
  cwd := cwd
  sys := ⟨[], 0⟩
  dir := fun _ => cwd
  files := files
  umask := umask

@[simp] theorem procs_withProcs (s : Session Dir File) (procs : List Process) :
    (s.withProcs procs).procs = procs := rfl

/-- What `fgets` takes next. -/
def reads (s : Session Dir File) : List (SessionEvent Dir) :=
  if s.input = [] then [] else [.read (takeLine 99 s.input).1]

section Step

variable [DecidableEq File] (naming : Naming Dir File) (s : Session Dir File)

/-- The processes, with the files as process `i` names them. -/
def machine (i : Nat) : Machine :=
  ⟨s.sys, fun name => s.files (naming.locate (s.dir i) name), s.umask⟩

def filesAfter : SysAction → File → Entry
  | .call i _ =>
      match (s.machine naming i).opening i with
      | some (name, flags, perm) =>
          let file := naming.locate (s.dir i) name
          Function.update s.files file ((s.files file).afterOpen s.umask flags perm)
      | none => s.files
  | _ => s.files

/-- The child of a `fork` has an uninitialized array `p`. `wait` collects one
terminated child, and fails without children. -/
def step : SessionAction File → Option (Session Dir File × List (SessionEvent Dir))
  | .getcmd =>
      match s.main with
      | .getcmd => (readCmd s.input).map fun (main, rest) =>
          ({ s with input := rest, main := main, cwd := naming.cwdAfter s.cwd s.input }, s.reads)
      | _ => none
  | .fork ok p =>
      match s.main with
      | .fork line =>
          let child : Process := ⟨none, .running (childCode line), p, s.fds⟩
          let s' := if ok then
            { s.withProcs (s.procs ++ [child]) with
              dir := Function.update s.dir s.procs.length s.cwd }
          else s
          some ({ s' with main := .wait }, [])
      | _ => none
  | .reap child =>
      match s.main, s.procs[child]? with
      | .wait, some ch =>
          if ch.parent = none ∧ ch.status = .terminated then
            some ({ s.withProcs (s.procs.set child { ch with status := .reaped }) with
              main := .getcmd }, [])
          else none
      | _, _ => none
  | .waitFails =>
      match s.main with
      | .wait =>
          if s.procs.any fun child => child.parent = none && child.status != .reaped then none
          else some ({ s with main := .getcmd }, [])
      | _ => none
  | .process action =>
      let dir := s.dir action.process
      if (s.machine naming action.process).admits action then
        (s.sys.step action).map fun (sys, events) =>
          -- the directory of the child, when there is one
          ({ s with
            sys := sys
            dir := Function.update s.dir s.procs.length dir
            files := s.filesAfter naming action }, events.map fun event => .process event dir)
      else none
  | .change files => some ({ s with files := files }, [])

end Step

end Session

section Runs

variable [DecidableEq File] {naming : Naming Dir File}

/-- Whenever `main` reads the next line, all processes started before have
terminated. -/
def WaitsForAll (naming : Naming Dir File) (input : Text) (fds : FdTable) (cwd : Dir)
    (files : File → Entry) (umask : Nat) : Prop :=
  ∀ history s, Reach (Session.step naming) anyStep (Session.start input fds cwd files umask)
    history s → s.main = .getcmd → ∀ pr ∈ s.procs, ¬ pr.Active

/-- The command lines of an input: those `main` forks for. -/
inductive IsCommand : Text → CString → Prop
  | here {input rest : Text} {line : CString} (h : readCmd input = some (.fork line, rest)) :
      IsCommand input line
  | after {input rest : Text} {main : MainPhase} {line : CString}
      (h : readCmd input = some (main, rest)) (hmain : main ≠ .exited)
      (later : IsCommand rest line) : IsCommand input line

/-- The line is not a pipeline of two or more stages. -/
def NoPipe (line : CString) : Prop := ∀ left right, parsecmd line ≠ .ok (.pipe left right)

/-- All that a step can do. -/
inductive Session.Step (naming : Naming Dir File) (s : Session Dir File) :
    SessionAction File → Session Dir File → List (SessionEvent Dir) → Prop
  | getcmd (main : MainPhase) (rest : Text) (cwd : Dir) (hmain : s.main = .getcmd)
      (hread : readCmd s.input = some (main, rest)) :
      Step naming s .getcmd { s with input := rest, main := main, cwd := cwd } s.reads
  | fork (line : CString) (p : Nat × Nat) (dir : Nat → Dir) (hmain : s.main = .fork line) :
      Step naming s (.fork true p)
        { s.withProcs (s.procs ++ [⟨none, .running (childCode line), p, s.fds⟩]) with
          main := .wait, dir := dir } []
  | forkFails (line : CString) (p : Nat × Nat) (hmain : s.main = .fork line) :
      Step naming s (.fork false p) { s with main := .wait } []
  | reap (child : Nat) (ch : Process) (hmain : s.main = .wait) (hch : s.procs[child]? = some ch)
      (hparent : ch.parent = none) (hstatus : ch.status = .terminated) :
      Step naming s (.reap child)
        { s.withProcs (s.procs.set child { ch with status := .reaped }) with main := .getcmd } []
  | waitFails (hmain : s.main = .wait)
      (hreaped : ∀ child ∈ s.procs, child.parent = none → child.status = .reaped) :
      Step naming s .waitFails { s with main := .getcmd } []
  | process (action : SysAction) (sys : System) (made : List SysEvent) (dir : Nat → Dir)
      (hadmits : (s.machine naming action.process).admits action = true)
      (hstep : s.sys.step action = some (sys, made)) :
      Step naming s (.process action)
        { s with sys := sys, dir := dir, files := s.filesAfter naming action }
        (made.map fun event => .process event (s.dir action.process))
  | change (files : File → Entry) : Step naming s (.change files) { s with files := files } []

theorem Session.step_inversion {s t : Session Dir File} {action : SessionAction File}
    {events : List (SessionEvent Dir)} (hstep : s.step naming action = some (t, events)) :
    s.Step naming action t events := by
  cases action with
  | getcmd =>
      simp only [step] at hstep
      split at hstep
      next hmain =>
        obtain ⟨⟨main, rest⟩, hread, heq⟩ := Option.map_eq_some_iff.mp hstep
        cases heq
        exact .getcmd main rest _ hmain hread
      next => cases hstep
  | fork ok p =>
      simp only [step] at hstep
      split at hstep
      next line hmain =>
        cases ok with
        | false =>
            cases hstep
            exact .forkFails line p hmain
        | true =>
            cases hstep
            exact .fork line p _ hmain
      next => cases hstep
  | reap child =>
      simp only [step] at hstep
      split at hstep
      next ch hmain hch =>
        split at hstep
        next hdone =>
          cases hstep
          exact .reap child ch hmain hch hdone.1 hdone.2
        next => cases hstep
      next => cases hstep
  | waitFails =>
      simp only [step] at hstep
      split at hstep
      next hmain =>
        split at hstep
        next => cases hstep
        next hnone =>
          cases hstep
          refine .waitFails hmain fun child hchild hparent => ?_
          simpa [hparent] using (List.any_eq_false.mp (Bool.eq_false_iff.mpr hnone)) child hchild
      next => cases hstep
  | process action =>
      obtain ⟨hadmits, hstep⟩ := Option.ite_none_right_eq_some.mp hstep
      obtain ⟨⟨sys, made⟩, hsys, heq⟩ := Option.map_eq_some_iff.mp hstep
      cases heq
      exact .process action sys made _ hadmits hsys
  | change files =>
      cases hstep
      exact .change files

end Runs

/-! ## Commands of one stage -/

/-- The code neither forks nor waits. -/
def Prog.Single : Prog → Prop
  | .close _ next | .dup _ next | .openFile _ _ _ next | .pipe next | .execvp _ next => next.Single
  | .fork _ _ | .wait _ => False
  | .exit => True

def Process.Single (pr : Process) : Prop := ∀ code, pr.status = .running code → code.Single

theorem Prog.Single.of_mem {code : Prog} (h : code.Single) :
    ∀ next ∈ code.continuations, next.Single := by
  intro next hnext
  cases code with
  | fork child parent => exact h.elim
  | wait next => exact h.elim
  | exit => cases hnext
  | _ =>
      obtain rfl := List.mem_singleton.mp hnext
      exact h

theorem IsStage.runcmd_single {cmd : Cmd} (h : IsStage cmd) (next : Prog) :
    (runcmd cmd next).Single := by
  induction h generalizing next with
  | exec words hlen hwords =>
      rw [runcmd]
      split <;> trivial
  | redir type hcmd hfile ih => exact ih .exit

theorem NoPipe.childCode_single {line : CString} (h : NoPipe line) : (childCode line).Single := by
  unfold childCode
  split
  next tree hparsed =>
    cases isPipeline_of_parsecmd hparsed with
    | stage hcmd => exact hcmd.runcmd_single .exit
    | pipe hleft hright => exact absurd hparsed (h _ _)
  next => trivial

/-- Among processes that do not fork, a step changes one that is active. -/
theorem System.step_single {sys sys' : System} {action : SysAction} {events : List SysEvent}
    (hsingle : ∀ pr ∈ sys.procs, pr.Single) (hstep : sys.step action = some (sys', events)) :
    ∃ (i : Nat) (pr pr' : Process), sys.procs[i]? = some pr ∧ pr.Active ∧
      sys'.procs = sys.procs.set i pr' ∧ pr'.parent = pr.parent ∧ pr'.Single := by
  have hcode : ∀ {i : Nat} {pr : Process} {code : Prog}, sys.procs[i]? = some pr →
      pr.status = .running code → code.Single :=
    fun hpr hstatus => hsingle _ (List.mem_of_getElem? hpr) _ hstatus
  cases System.step_inversion hstep with
  | @goOn i pr pr' code next pipes hpr hstatus hnext hgoes hparent =>
      have hactive : pr.Active := by simp [Process.Active, hstatus]
      refine ⟨i, pr, pr', hpr, hactive, rfl, hparent, Process.runs_of_running hgoes ?_⟩
      exact (hcode hpr hstatus).of_mem next hnext
  | fork i hpr hstatus => exact (hcode hpr hstatus).elim
  | @stop i pr pr' hpr hactive hstopped hparent =>
      exact ⟨i, pr, pr', hpr, hactive, rfl, hparent, Process.runs_of_stopped hstopped⟩
  | reap i child hpr hstatus hch hdone hparent => exact (hcode hpr hstatus).elim

/-! ## Sessions without pipelines -/

/-- Only the last process can be left to wait for, and only while `main` waits. -/
structure Attended (s : Session Dir File) : Prop where
  later : s.main ≠ .exited → ∀ line, IsCommand s.input line → NoPipe line
  now : ∀ line, s.main = .fork line → NoPipe line
  single : ∀ pr ∈ s.procs, pr.Single
  children : ∀ pr ∈ s.procs, pr.parent = none
  last : ∀ (i : Nat) (pr : Process), s.procs[i]? = some pr → pr.status ≠ .reaped →
    i + 1 = s.procs.length
  reaped : s.main ≠ .wait → ∀ pr ∈ s.procs, pr.status = .reaped

theorem Attended.start {input : Text} (h : ∀ line, IsCommand input line → NoPipe line)
    (fds : FdTable) (cwd : Dir) (files : File → Entry) (umask : Nat) :
    Attended (Session.start input fds cwd files umask) where
  later _ := h
  now line hmain := by cases hmain
  single pr hpr := absurd hpr List.not_mem_nil
  children pr hpr := absurd hpr List.not_mem_nil
  last i pr hpr := by simp [Session.start, Session.procs] at hpr
  reaped _ pr hpr := absurd hpr List.not_mem_nil

section Attended

variable {s : Session Dir File} (h : Attended s)
include h

theorem Attended.getcmd {main : MainPhase} {rest : Text} (cwd : Dir) (hmain : s.main = .getcmd)
    (hread : readCmd s.input = some (main, rest)) :
    Attended { s with input := rest, main := main, cwd := cwd } := by
  have hlines := h.later (by simp [hmain])
  have hreaped := h.reaped (by simp [hmain])
  refine ⟨?_, ?_, h.single, h.children, h.last, fun _ => hreaped⟩
  · exact fun hgoes line hline => hlines line (.after hread hgoes hline)
  · rintro line rfl
    exact hlines line (.here hread)

/-- The new process is the only one that has not been waited for. -/
theorem Attended.fork {line : CString} (p : Nat × Nat) (dir : Nat → Dir)
    (hmain : s.main = .fork line) :
    Attended { s.withProcs (s.procs ++ [⟨none, .running (childCode line), p, s.fds⟩]) with
      main := .wait, dir := dir } := by
  have hreaped := h.reaped (by simp [hmain])
  refine ⟨fun _ => h.later (by simp [hmain]), ?_, ?_, ?_, ?_, fun hne => absurd rfl hne⟩
  · intro other hother
    cases hother
  · intro pr hpr
    rcases List.mem_append.mp hpr with hpr | hpr
    · exact h.single pr hpr
    · rw [List.mem_singleton.mp hpr]
      exact Process.runs_of_running rfl (h.now line hmain).childCode_single
  · intro pr hpr
    rcases List.mem_append.mp hpr with hpr | hpr
    · exact h.children pr hpr
    · rw [List.mem_singleton.mp hpr]
  · intro i pr hpr hstatus
    have hpr' : (s.procs ++ [⟨none, .running (childCode line), p, s.fds⟩])[i]? = some pr := hpr
    show i + 1 = (s.procs ++ [_]).length
    have hlt := (List.getElem?_eq_some_iff.mp hpr').1
    rw [List.length_append, List.length_singleton] at hlt ⊢
    by_contra hne
    rw [List.getElem?_append_left (by omega)] at hpr'
    exact hstatus (hreaped pr (List.mem_of_getElem? hpr'))

theorem Attended.wait (hgoes : s.main ≠ .exited) : Attended { s with main := .wait } where
  later _ := h.later hgoes
  now line hline := by cases hline
  single := h.single
  children := h.children
  last := h.last
  reaped hne := absurd rfl hne

theorem Attended.waitFails (hmain : s.main = .wait)
    (hreaped : ∀ child ∈ s.procs, child.parent = none → child.status = .reaped) :
    Attended { s with main := .getcmd } where
  later _ := h.later (by simp [hmain])
  now line hline := by cases hline
  single := h.single
  children := h.children
  last := h.last
  reaped _ pr hpr := hreaped pr hpr (h.children pr hpr)

/-- A process that has not been waited for is replaced by another of one stage. -/
theorem Attended.set {i : Nat} {pr pr' : Process} (hpr : s.procs[i]? = some pr)
    (hstatus : pr.status ≠ .reaped) (hsingle : pr'.Single) (hparent : pr'.parent = pr.parent)
    {procs : List Process} (hprocs : procs = s.procs.set i pr') :
    (∀ other ∈ procs, other.Single) ∧ (∀ other ∈ procs, other.parent = none) ∧
      (∀ (j : Nat) (other : Process), procs[j]? = some other → other.status ≠ .reaped →
        j + 1 = procs.length) ∧
      (pr'.status = .reaped → ∀ other ∈ procs, other.status = .reaped) := by
  subst hprocs
  have hlast := h.last i pr hpr hstatus
  have hothers : ∀ (j : Nat) (other : Process), j ≠ i → s.procs[j]? = some other →
      other.status = .reaped := by
    intro j other hji hother
    by_contra hunreaped
    have hj := h.last j other hother hunreaped
    omega
  refine ⟨?_, ?_, ?_, ?_⟩
  · intro other hother
    rcases List.mem_or_eq_of_mem_set hother with hmem | rfl
    · exact h.single other hmem
    · exact hsingle
  · intro other hother
    rcases List.mem_or_eq_of_mem_set hother with hmem | rfl
    · exact h.children other hmem
    · rw [hparent, h.children pr (List.mem_of_getElem? hpr)]
  · intro j other hother hunreaped
    rw [List.length_set]
    by_cases hji : j = i
    · omega
    · rw [List.getElem?_set_ne (Ne.symm hji)] at hother
      exact absurd (hothers j other hji hother) hunreaped
  · intro hdone other hother
    obtain ⟨j, hj⟩ := List.mem_iff_getElem?.mp hother
    by_cases hji : j = i
    · subst hji
      have hlt := (List.getElem?_eq_some_iff.mp hpr).1
      rw [List.getElem?_set_self hlt] at hj
      cases hj
      exact hdone
    · rw [List.getElem?_set_ne (Ne.symm hji)] at hj
      exact hothers j other hji hj

theorem Attended.reap {child : Nat} {ch : Process} (hmain : s.main = .wait)
    (hch : s.procs[child]? = some ch) (hstatus : ch.status = .terminated) :
    Attended { s.withProcs (s.procs.set child { ch with status := .reaped }) with
      main := .getcmd } := by
  have hsingle : Process.Single { ch with status := .reaped } := fun code hcode => by cases hcode
  obtain ⟨hsingles, hchildren, hlast, hreaped⟩ :=
    h.set hch (by simp [hstatus]) hsingle rfl rfl
  refine ⟨fun _ => h.later (by simp [hmain]), ?_, hsingles, hchildren, hlast, fun _ => hreaped rfl⟩
  intro line hline
  cases hline

theorem Attended.process {action : SysAction} {sys : System} {made : List SysEvent}
    (hstep : s.sys.step action = some (sys, made)) (dir : Nat → Dir) (files : File → Entry) :
    Attended { s with sys := sys, dir := dir, files := files } := by
  obtain ⟨i, pr, pr', hpr, hactive, hprocs, hparent, hsingle⟩ := System.step_single h.single hstep
  obtain ⟨hsingles, hchildren, hlast, -⟩ := h.set hpr hactive.2 hsingle hparent hprocs
  refine ⟨h.later, h.now, hsingles, hchildren, hlast, fun hne => ?_⟩
  -- a process is active, so `main` waits
  exact absurd (h.reaped hne pr (List.mem_of_getElem? hpr)) hactive.2

variable [DecidableEq File] {naming : Naming Dir File}

theorem Attended.step {t : Session Dir File} {action : SessionAction File}
    {events : List (SessionEvent Dir)} (hstep : s.Step naming action t events) : Attended t := by
  cases hstep with
  | getcmd main rest cwd hmain hread => exact h.getcmd cwd hmain hread
  | fork line p dir hmain => exact h.fork p dir hmain
  | forkFails line p hmain => exact h.wait (by simp [hmain])
  | reap child ch hmain hch hparent hstatus => exact h.reap hmain hch hstatus
  | waitFails hmain hreaped => exact h.waitFails hmain hreaped
  | process action sys made dir hadmits hsys => exact h.process hsys dir _
  | change files => exact ⟨h.later, h.now, h.single, h.children, h.last, h.reaped⟩

end Attended

variable [DecidableEq File] {naming : Naming Dir File}

theorem attended_of_reach {input : Text} (h : ∀ line, IsCommand input line → NoPipe line)
    {fds : FdTable} {cwd : Dir} {files : File → Entry} {umask : Nat}
    {history : List (SessionEvent Dir)} {s : Session Dir File}
    (hreach : Reach (Session.step naming) anyStep (Session.start input fds cwd files umask)
      history s) : Attended s := by
  induction hreach with
  | start => exact .start h fds cwd files umask
  | step _ _ hstep ih => exact ih.step (Session.step_inversion hstep)

theorem waitsForAll_of_noPipe {input : Text} (h : ∀ line, IsCommand input line → NoPipe line)
    (naming : Naming Dir File) (fds : FdTable) (cwd : Dir) (files : File → Entry) (umask : Nat) :
    WaitsForAll naming input fds cwd files umask := by
  intro history s hreach hmain pr hpr hactive
  exact hactive.2 ((attended_of_reach h hreach).reaped (by simp [hmain]) pr hpr)

/-! ## Sessions with a pipeline

The child of `main` that runs a pipeline forks the process of the left side and
becomes the process of the right side. It can be done before the left side is.
-/

section Pipelines

variable {init s : Session Dir File} {history : List (SessionEvent Dir)}

/-- What a call does to the processes it does in the session. -/
theorem Session.step_process_call {i : Nat} {pr : Process} {code : Prog} {ok : Bool}
    {sys' : System} {events : List SysEvent} (hpr : s.procs[i]? = some pr)
    (hstatus : pr.status = .running code)
    (hadmits : (s.machine naming i).admits (.call i ok) = true)
    (hcall : s.sys.call i pr ok code = some (sys', events)) :
    ∃ t made, s.step naming (.process (.call i ok)) = some (t, made) ∧ t.main = s.main ∧
      t.input = s.input ∧ t.procs = sys'.procs := by
  have hpr' : s.sys.procs[i]? = some pr := hpr
  have hsys : s.sys.step (.call i ok) = some (sys', events) := by
    simp only [System.step, hpr', hstatus, hcall]
  have hstep : s.step naming (.process (.call i ok)) =
      some ({ s with
        sys := sys'
        dir := Function.update s.dir s.procs.length (s.dir i)
        files := s.filesAfter naming (.call i ok) },
          events.map fun event => .process event (s.dir i)) := by
    simp only [step, SysAction.process, hadmits, if_true, hsys, Option.map_some]
  exact ⟨_, _, hstep, rfl, rfl, rfl⟩

/-- The result of any call but `open` is free. -/
theorem Machine.admits_of_not_open {m : Machine} {i : Nat} {pr : Process} {code : Prog} (ok : Bool)
    (hpr : m.sys.procs[i]? = some pr) (hstatus : pr.status = .running code)
    (hcode : ∀ file flags perm next, code ≠ .openFile file flags perm next) :
    m.admits (.call i ok) = true := by
  simp only [admits, opening, hpr, hstatus]
  cases code with
  | openFile file flags perm next => exact absurd rfl (hcode file flags perm next)
  | _ => rfl

variable (naming init s) in
/-- Process `i`, a child of `main`, can terminate while nothing else changes. -/
def CanExit (i : Nat) : Prop :=
  ∃ later t pr, Reach (Session.step naming) anyStep init later t ∧ t.main = s.main ∧
    t.procs = s.procs.set i pr ∧ pr.status = .terminated ∧ pr.parent = none

/-- One more call in front. -/
theorem CanExit.of_call {i : Nat} {pr pr' : Process} {code : Prog} {ok : Bool} {sys' : System}
    {events : List SysEvent} (hreach : Reach (Session.step naming) anyStep init history s)
    (hpr : s.procs[i]? = some pr) (hstatus : pr.status = .running code)
    (hadmits : (s.machine naming i).admits (.call i ok) = true)
    (hcall : s.sys.call i pr ok code = some (sys', events))
    (hprocs : sys'.procs = s.procs.set i pr')
    (hexit : ∀ later t, Reach (Session.step naming) anyStep init later t → t.procs[i]? = some pr' →
      CanExit naming init t i) : CanExit naming init s i := by
  have hlt := (List.getElem?_eq_some_iff.mp hpr).1
  obtain ⟨t, made, hstep, hmain, -, ht⟩ := Session.step_process_call hpr hstatus hadmits hcall
  rw [hprocs] at ht
  have hpr' : t.procs[i]? = some pr' := by rw [ht, List.getElem?_set_self hlt]
  obtain ⟨later, u, last, hlater, hmain', hu, hlast, hparent⟩ :=
    hexit _ t (.step hreach trivial hstep) hpr'
  refine ⟨later, u, last, hlater, hmain'.trans hmain, ?_, hlast, hparent⟩
  rw [hu, ht, List.set_set]

/-- A process can go on alone until it exits: its forks and `execvp` calls may
fail. -/
theorem canExit_of_regular {i : Nat} {pr : Process} {code : Prog} (hregular : code.Regular)
    (hreach : Reach (Session.step naming) anyStep init history s) (hpr : s.procs[i]? = some pr)
    (hstatus : pr.status = .running code) (hparent : pr.parent = none) :
    CanExit naming init s i := by
  induction code generalizing s history pr with
  | close fd next ih =>
      refine .of_call hreach hpr hstatus
        (Machine.admits_of_not_open true hpr hstatus (by simp)) rfl rfl ?_
      exact fun later t hlater ht => ih hregular hlater ht rfl hparent
  | dup fd next ih =>
      refine .of_call hreach hpr hstatus
        (Machine.admits_of_not_open true hpr hstatus (by simp)) rfl rfl ?_
      exact fun later t hlater ht => ih hregular hlater ht rfl hparent
  | openFile file flags perm next ih =>
      have hopening : (s.machine naming i).opening i = some (file, flags, perm) :=
        Machine.opening_eq_some hpr hstatus
      have hadmits : (s.machine naming i).admits
          (.call i (((s.machine naming i).files file).opens flags)) = true := by
        simp only [Machine.admits, hopening, decide_true]
      refine .of_call hreach hpr hstatus hadmits rfl rfl ?_
      exact fun later t hlater ht => ih hregular hlater ht rfl hparent
  | pipe next ih =>
      refine .of_call hreach hpr hstatus
        (Machine.admits_of_not_open false hpr hstatus (by simp)) rfl rfl ?_
      exact fun later t hlater ht => ih hregular hlater ht rfl hparent
  | fork child parent ihc ihp =>
      refine .of_call hreach hpr hstatus
        (Machine.admits_of_not_open false hpr hstatus (by simp)) rfl rfl ?_
      exact fun later t hlater ht => ihp hregular.2.2 hlater ht rfl hparent
  | execvp argv next ih =>
      obtain rfl : next = .exit := hregular
      refine .of_call hreach hpr hstatus
        (Machine.admits_of_not_open false hpr hstatus (by simp)) rfl rfl ?_
      exact fun later t hlater ht => ih trivial hlater ht rfl hparent
  | wait next ih => exact hregular.elim
  | exit =>
      obtain ⟨t, made, hstep, hmain, -, ht⟩ := Session.step_process_call hpr hstatus
        (Machine.admits_of_not_open true hpr hstatus (by simp)) rfl
      exact ⟨_, t, _, .step hreach trivial hstep, hmain, ht, rfl, hparent⟩

/-- Main collects a child that has terminated. -/
theorem Session.step_reap {i : Nat} {pr : Process} (hmain : s.main = .wait)
    (hpr : s.procs[i]? = some pr) (hparent : pr.parent = none) (hstatus : pr.status = .terminated) :
    s.step naming (.reap i) = some ({ s.withProcs (s.procs.set i { pr with status := .reaped }) with
      main := .getcmd }, []) := by
  simp only [step, hmain, hpr, hparent, hstatus, and_self, if_true]

/-- Of a pipeline the process of the left side can be left behind. -/
theorem exists_left_behind {child parent : Prog} (hregular : parent.Regular)
    (hreach : Reach (Session.step naming) anyStep init history s) {i : Nat} {pr : Process}
    (hpr : s.procs[i]? = some pr) (hstatus : pr.status = .running (.pipe (.fork child parent)))
    (hparent : pr.parent = none) (hmain : s.main = .wait) :
    ∃ later t, Reach (Session.step naming) anyStep init later t ∧ t.main = .getcmd ∧
      ∃ pr ∈ t.procs, pr.Active := by
  have hlt := (List.getElem?_eq_some_iff.mp hpr).1
  -- `pipe` fails, `fork` does not
  obtain ⟨s₁, _, hstep₁, hmain₁, -, hprocs₁⟩ := Session.step_process_call hpr hstatus
    (Machine.admits_of_not_open false hpr hstatus (by simp)) rfl
  have hpr₁ : s₁.procs[i]? = some (pr.goOn (.fork child parent) pr.fds) := by
    rw [hprocs₁]
    exact List.getElem?_set_self hlt
  obtain ⟨s₂, _, hstep₂, hmain₂, -, hprocs₂⟩ := Session.step_process_call hpr₁ rfl
    (Machine.admits_of_not_open true hpr₁ rfl (by simp)) rfl
  have hreach₂ := Reach.step (Reach.step hreach trivial hstep₁) trivial hstep₂
  have hlt₁ := (List.getElem?_eq_some_iff.mp hpr₁).1
  have hboth : s₂.procs = s₁.procs.set i (pr.goOn parent pr.fds) ++
      [{ pr with parent := some i, status := .running child }] := hprocs₂
  have hpr₂ : s₂.procs[i]? = some (pr.goOn parent pr.fds) := by
    rw [hboth, List.getElem?_append_left (by rwa [List.length_set]), List.getElem?_set_self hlt₁]
  have hleft : s₂.procs[s₁.procs.length]? =
      some { pr with parent := some i, status := .running child } := by
    rw [hboth, List.getElem?_append_right (by rw [List.length_set]), List.length_set, Nat.sub_self]
    rfl
  obtain ⟨later, s₃, last, hreach₃, hmain₃, hprocs₃, hlast, hlastParent⟩ :=
    canExit_of_regular hregular hreach₂ hpr₂ rfl hparent
  have hlt₂ := (List.getElem?_eq_some_iff.mp hpr₂).1
  have hpr₃ : s₃.procs[i]? = some last := by rw [hprocs₃, List.getElem?_set_self hlt₂]
  have hwaits : s₃.main = .wait := by rw [hmain₃, hmain₂, hmain₁, hmain]
  refine ⟨_, _, .step hreach₃ trivial (Session.step_reap hwaits hpr₃ hlastParent hlast), rfl,
    { pr with parent := some i, status := .running child }, ?_, by simp [Process.Active]⟩
  apply List.mem_of_getElem?
  show (s₃.procs.set i _)[s₁.procs.length]? = _
  rw [List.getElem?_set_ne (by omega), hprocs₃, List.getElem?_set_ne (by omega), hleft]

theorem readCmd_ne_wait {input rest : Text} : readCmd input ≠ some (.wait, rest) := by
  intro h
  obtain ⟨⟨status, buf, after⟩, -, hphase⟩ := Option.bind_eq_some_iff.mp h
  simp only at hphase
  split at hphase
  · cases hphase
  · split at hphase
    · obtain ⟨_, -, heq⟩ := Option.map_eq_some_iff.mp hphase
      cases heq
    · obtain ⟨_, -, heq⟩ := Option.map_eq_some_iff.mp hphase
      cases heq

theorem Session.step_getcmd (hmain : s.main = .getcmd) {main : MainPhase} {rest : Text}
    (hread : readCmd s.input = some (main, rest)) :
    s.step naming .getcmd = some ({ s with
      input := rest, main := main, cwd := naming.cwdAfter s.cwd s.input }, s.reads) := by
  simp only [Session.step, hmain, hread, Option.map_some]

/-- A line is skipped when the fork for it fails. -/
theorem reach_after (hreach : Reach (Session.step naming) anyStep init history s)
    (hmain : s.main = .getcmd) (hprocs : s.procs = []) {main : MainPhase} {rest : Text}
    (hread : readCmd s.input = some (main, rest)) (hgoes : main ≠ .exited) :
    ∃ later t, Reach (Session.step naming) anyStep init later t ∧ t.main = .getcmd ∧
      t.procs = [] ∧ t.input = rest := by
  have hreach₁ := Reach.step hreach trivial (Session.step_getcmd hmain hread)
  cases main with
  | getcmd => exact ⟨_, _, hreach₁, rfl, hprocs, rfl⟩
  | fork line =>
      have hreach₂ := Reach.step (a := .fork false (0, 0)) hreach₁ trivial rfl
      have hnone : s.sys.procs = [] := hprocs
      have hwait : Session.step naming { s with
          input := rest, main := .wait, cwd := naming.cwdAfter s.cwd s.input } .waitFails =
          some ({ s with
            input := rest, main := .getcmd, cwd := naming.cwdAfter s.cwd s.input }, []) := by
        simp [Session.step, Session.procs, hnone]
      exact ⟨_, _, .step hreach₂ trivial hwait, rfl, hprocs, rfl⟩
  | wait => exact absurd hread readCmd_ne_wait
  | exited => exact absurd rfl hgoes

/-- An input with a pipeline has a run that leaves a process behind. -/
theorem exists_active_of_pipe {input : Text} {line : CString} {left right : Cmd}
    (hline : IsCommand input line) (hparsed : parsecmd line = .ok (.pipe left right))
    (hreach : Reach (Session.step naming) anyStep init history s) (hmain : s.main = .getcmd)
    (hprocs : s.procs = []) (hinput : s.input = input) :
    ∃ later t, Reach (Session.step naming) anyStep init later t ∧ t.main = .getcmd ∧
      ∃ pr ∈ t.procs, pr.Active := by
  induction hline generalizing s history with
  | @after input rest main line hread hgoes hlater ih =>
      obtain ⟨later, t, hreach', hmain', hprocs', hinput'⟩ :=
        reach_after hreach hmain hprocs (hinput ▸ hread) hgoes
      exact ih hparsed hreach' hmain' hprocs' hinput'
  | @here input rest line hread =>
      have hgetcmd := Reach.step hreach trivial (Session.step_getcmd hmain (hinput ▸ hread))
      have hreach' := Reach.step (a := .fork true (0, 0)) hgetcmd trivial rfl
      have hcode : childCode line = runcmd (.pipe left right) .exit := by
        rw [childCode, hparsed]
      obtain ⟨stages, hderives, htree⟩ := (parsecmd_ok_iff line _).mp hparsed
      have hregular : (runcmd (.pipe left right) .exit).Regular := by
        rw [htree]
        exact runcmd_pipeline_regular hderives.ne_nil .exit
      have hpr : (s.procs ++ [(⟨none, .running (childCode line), (0, 0), s.fds⟩ : Process)])[0]? =
          some ⟨none, .running (runcmd (.pipe left right) .exit), (0, 0), s.fds⟩ := by
        rw [hprocs, hcode]
        rfl
      exact exists_left_behind hregular.2.2 hreach' hpr rfl rfl rfl

end Pipelines

/-- `main` waits for all processes of the lines before, in every run, exactly when no
command line is a pipeline. -/
theorem waitsForAll_iff (naming : Naming Dir File) (input : Text) (fds : FdTable) (cwd : Dir)
    (files : File → Entry) (umask : Nat) :
    WaitsForAll naming input fds cwd files umask ↔ ∀ line, IsCommand input line → NoPipe line := by
  constructor
  · intro hwaits line hline left right hparsed
    have hstart : Reach (Session.step naming) anyStep (Session.start input fds cwd files umask) []
        (Session.start input fds cwd files umask) := .start
    obtain ⟨later, t, hreach, hmain, pr, hpr, hactive⟩ :=
      exists_active_of_pipe hline hparsed hstart rfl rfl rfl
    exact hwaits later t hreach hmain pr hpr hactive
  · exact fun h => waitsForAll_of_noPipe h naming fds cwd files umask

/-- Names of files below a directory, without `.` and `..`. -/
def plainNames : Naming Text Text where
  chdir dir path := some (if path.head? = some 47 then path else dir ++ 47 :: path)
  locate dir name := if name.head? = some 47 then name else dir ++ 47 :: name

/-- `a|b` and a newline. -/
def pipedPair : CString := ⟨[97, 124, 98, 10], by decide⟩

/-- The process of `a` is left behind when that of `b` is done. -/
theorem pipedPair_left_behind :
    ¬ WaitsForAll plainNames pipedPair.1 terminalFds [] noFiles 18 := by
  intro hwaits
  have hread : readCmd pipedPair.1 = some (.fork pipedPair, []) := by decide
  have hparsed : parsecmd pipedPair =
      .ok (.pipe (.exec (argvOf [[97]])) (.exec (argvOf [[98]]))) := by decide
  have hstart : Reach (Session.step plainNames) anyStep
      (Session.start pipedPair.1 terminalFds [] noFiles 18) []
      (Session.start pipedPair.1 terminalFds [] noFiles 18) := .start
  obtain ⟨later, t, hreach, hmain, pr, hpr, hactive⟩ :=
    exists_active_of_pipe (.here hread) hparsed hstart rfl rfl rfl
  exact hwaits later t hreach hmain pr hpr hactive

/-! ## Standard input is shared

The children have the descriptor of standard input in common with `main`, and with it
the offset: a program that is executed may read from it, and `exit` moves it back over
what `main` has in its buffer.
-/

/-- A step of the session, or a process other than `main` moves the offset. -/
inductive SharedAction (File : Type*)
  | session (action : SessionAction File)
  | stdin (input : CString)

section Shared

variable {s t : Session Dir File} {action : SharedAction File} {events : List (SessionEvent Dir)}

def Session.sharedStep (naming : Naming Dir File) (s : Session Dir File) :
    SharedAction File → Option (Session Dir File × List (SessionEvent Dir))
  | .session action => s.step naming action
  | .stdin input => some ({ s with input := input.1 }, [.moved])

/-- All that a step with shared standard input can do. -/
inductive Session.SharedStep (naming : Naming Dir File) (s : Session Dir File) :
    SharedAction File → Session Dir File → List (SessionEvent Dir) → Prop
  | session {action : SessionAction File} {t : Session Dir File}
      {events : List (SessionEvent Dir)} (hstep : s.Step naming action t events) :
      SharedStep naming s (.session action) t events
  | stdin (input : CString) :
      SharedStep naming s (.stdin input) { s with input := input.1 } [.moved]

theorem Session.sharedStep_inversion (hstep : s.sharedStep naming action = some (t, events)) :
    s.SharedStep naming action t events := by
  cases action with
  | session action => exact .session (Session.step_inversion hstep)
  | stdin input =>
      cases hstep
      exact .stdin input

end Shared

end OsCourse.Shell
