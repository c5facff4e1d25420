import OsCourse.Shell.Session

/-! # What a session executes

From the bytes of the input to the calls of `execvp`. `fgets` hands the input to
`main` in pieces, and every piece but a `cd` is a command line. Whatever fails on
the way, no program is executed that does not stand on a line. What `main` reads is
the input from its start to its end as long as no other process moves the offset.
-/

namespace OsCourse.Shell

open CBuffer Transition

/-- What one call of `fgets` after the other takes from the input. -/
def pieces (input : Text) : List Text :=
  if _h : input = [] then []
  else (takeLine 99 input).1 :: pieces (takeLine 99 input).2
termination_by input.length
decreasing_by exact length_takeLine_lt ‹_›

/-- The pieces that `main` does not execute itself. -/
def commandLines (lines : List Text) : List Text := lines.filter (¬ cd <+: ·)

/-- The calls of one line, whose pipes are numbered from `n` up to the last number. -/
inductive LineCalls (init : FdView) (n : Nat) (line : Text) : List (Argv × FdView) → Nat → Prop
  | pipeline {stages : List Stage} (hderives : Derives (tokens line) stages) :
      LineCalls init n line (pipelineCalls init (init 0) n stages) (n + (stages.length - 1))
  | rejected (hrejected : ∀ stages, ¬ Derives (tokens line) stages) : LineCalls init n line [] n

/-- The calls of one line after the other. -/
inductive SessionCalls (init : FdView) : Nat → List Text → List (Argv × FdView) → Nat → Prop
  | nil (n : Nat) : SessionCalls init n [] [] n
  | cons {n m k : Nat} {line : Text} {lines : List Text} {calls more : List (Argv × FdView)}
      (hline : LineCalls init n line calls m) (hlines : SessionCalls init m lines more k) :
      SessionCalls init n (line :: lines) (calls ++ more) k

theorem pieces_nil : pieces [] = [] := by
  rw [pieces, dif_pos rfl]

theorem pieces_of_ne_nil {input : Text} (h : input ≠ []) :
    pieces input = (takeLine 99 input).1 :: pieces (takeLine 99 input).2 := by
  rw [pieces, dif_neg h]

theorem SessionCalls.append {init : FdView} {n m k : Nat} {lines later : List Text}
    {calls more : List (Argv × FdView)} (h : SessionCalls init n lines calls m)
    (hlater : SessionCalls init m later more k) :
    SessionCalls init n (lines ++ later) (calls ++ more) k := by
  induction h with
  | nil => exact hlater
  | cons hline _ ih =>
      rw [List.cons_append, List.append_assoc]
      exact .cons hline (ih hlater)

theorem SessionCalls.snoc {init : FdView} {n m k : Nat} {lines : List Text} {line : Text}
    {calls more : List (Argv × FdView)} (h : SessionCalls init n lines calls m)
    (hline : LineCalls init m line more k) :
    SessionCalls init n (lines ++ [line]) (calls ++ more) k := by
  have hlast := SessionCalls.cons hline (.nil k)
  rw [List.append_nil] at hlast
  exact h.append hlast

/-! ## Reading -/

/-- A piece that `main` reads is executed by itself, or starts with `cd `; it stops at
the end of the input. -/
theorem readCmd_cases {input rest : Text} {main : MainPhase} (hnul : (0 : UInt8) ∉ input)
    (h : readCmd input = some (main, rest)) :
    (input = [] ∧ main = .exited ∧ rest = []) ∨
      (input ≠ [] ∧ rest = (takeLine 99 input).2 ∧
        ((cd <+: (takeLine 99 input).1 ∧ main = .getcmd) ∨
          (¬ cd <+: (takeLine 99 input).1 ∧
            ∃ line : CString, line.1 = (takeLine 99 input).1 ∧ main = .fork line))) := by
  have hline := (nulFree_takeLine hnul 99).1
  have hlen := length_takeLine_le 99 input
  rw [readCmd, getcmd_eq hnul, Option.bind_some] at h
  by_cases hne : input = []
  · subst hne
    simp only [if_true, show (-1 : Int) < 0 by decide] at h
    cases h
    exact .inl ⟨rfl, rfl, rfl⟩
  · simp only [if_neg hne, Int.lt_irrefl, if_false, isCd_pad, decide_eq_true_eq] at h
    refine .inr ⟨hne, ?_⟩
    by_cases hcd : cd <+: (takeLine 99 input).1
    · rw [if_pos hcd] at h
      obtain ⟨_, -, heq⟩ := Option.map_eq_some_iff.mp h
      cases heq
      exact ⟨rfl, .inl ⟨hcd, rfl⟩⟩
    · rw [if_neg hcd] at h
      obtain ⟨line, hcommand, heq⟩ := Option.map_eq_some_iff.mp h
      cases heq
      refine ⟨rfl, .inr ⟨hcd, line, ?_, rfl⟩⟩
      unfold commandLine at hcommand
      split at hcommand
      next text htext =>
        cases hcommand
        rw [getString_line hline hlen] at htext
        exact (Option.some.inj htext).symm
      next => cases hcommand

/-- The line that `main` is about to fork for. -/
def MainPhase.pending : MainPhase → List Text
  | .fork line => [line.1]
  | _ => []

@[simp] theorem MainPhase.pending_getcmd : MainPhase.pending .getcmd = [] := rfl
@[simp] theorem MainPhase.pending_wait : MainPhase.pending .wait = [] := rfl
@[simp] theorem MainPhase.pending_exited : MainPhase.pending .exited = [] := rfl
@[simp] theorem MainPhase.pending_fork (line : CString) :
    MainPhase.pending (.fork line) = [line.1] := rfl

/-- The piece that an event takes from the input. -/
def SessionEvent.piece {Dir : Type*} : SessionEvent Dir → Option Text
  | .read piece => some piece
  | _ => none

/-- The call of a process that an event is. -/
def SessionEvent.call {Dir : Type*} : SessionEvent Dir → Option SysEvent
  | .process event _ => some event
  | _ => none

section Histories

variable {Dir File : Type*}

/-- All that `main` has read. -/
def piecesRead (history : List (SessionEvent Dir)) : List Text :=
  history.filterMap SessionEvent.piece

/-- The calls of the processes. -/
def callsMade (history : List (SessionEvent Dir)) : List SysEvent :=
  history.filterMap SessionEvent.call

@[simp] theorem piecesRead_append (first second : List (SessionEvent Dir)) :
    piecesRead (first ++ second) = piecesRead first ++ piecesRead second :=
  List.filterMap_append

@[simp] theorem callsMade_append (first second : List (SessionEvent Dir)) :
    callsMade (first ++ second) = callsMade first ++ callsMade second :=
  List.filterMap_append

@[simp] theorem piecesRead_process (made : List SysEvent) (dir : Dir) :
    piecesRead (made.map fun event => .process event dir) = [] := by
  simp [piecesRead, SessionEvent.piece]

@[simp] theorem callsMade_process (made : List SysEvent) (dir : Dir) :
    callsMade (made.map fun event => .process event dir) = made := by
  rw [callsMade, List.filterMap_map]
  exact List.filterMap_some

@[simp] theorem callsMade_reads (s : Session Dir File) : callsMade s.reads = [] := by
  unfold Session.reads
  split <;> rfl

theorem not_moved_of_append {first second : List (SessionEvent Dir)}
    (h : .moved ∉ first ++ second) : .moved ∉ first :=
  fun hfirst => h (List.mem_append_left _ hfirst)

/-- `main` has dealt with the pieces `done` of what it has read. -/
structure Reading (input : Text) (history : List (SessionEvent Dir)) (s : Session Dir File)
    (done : List Text) : Prop where
  nulFree : (0 : UInt8) ∉ s.input
  read : piecesRead history = done ++ s.main.pending
  command : ∀ line, s.main = .fork line → ¬ cd <+: line.1
  unmoved : .moved ∉ history → piecesRead history ++ pieces s.input = pieces input
  exited : .moved ∉ history → s.main = .exited → s.input = []

section Reading

variable {input : Text} {history : List (SessionEvent Dir)} {s : Session Dir File}
  {done : List Text} (h : Reading input history s done)
include h

theorem Reading.getcmd {main : MainPhase} {rest : Text} (cwd : Dir) (hmain : s.main = .getcmd)
    (hread : readCmd s.input = some (main, rest)) :
    ∃ done', Reading input (history ++ s.reads) { s with input := rest, main := main, cwd := cwd }
      done' ∧ commandLines done' = commandLines done := by
  have hdone := h.read
  rw [hmain, MainPhase.pending_getcmd, List.append_nil] at hdone
  rcases readCmd_cases h.nulFree hread with ⟨hnil, rfl, rfl⟩ |
    ⟨hne, rfl, hcases⟩
  · have hreads : s.reads = [] := if_pos hnil
    rw [hreads, List.append_nil]
    refine ⟨done, ⟨by simp, ?_, ?_, ?_, fun _ _ => rfl⟩, rfl⟩
    · rw [hdone, MainPhase.pending_exited, List.append_nil]
    · rintro line heq
      cases heq
    · intro hnone
      have hsplit := h.unmoved hnone
      rwa [hnil] at hsplit
  · have hreads : piecesRead s.reads = [(takeLine 99 s.input).1] := by
      rw [Session.reads, if_neg hne]
      rfl
    have hunmoved : SessionEvent.moved ∉ history ++ s.reads →
        piecesRead (history ++ s.reads) ++ pieces (takeLine 99 s.input).2 = pieces input := by
      intro hnone
      rw [← h.unmoved (not_moved_of_append hnone), pieces_of_ne_nil hne, piecesRead_append, hreads]
      simp
    have hnul := (nulFree_takeLine h.nulFree 99).2
    rcases hcases with ⟨hcd, rfl⟩ | ⟨hcommand, line, hline, rfl⟩
    · refine ⟨done ++ [(takeLine 99 s.input).1], ⟨hnul, ?_, ?_, hunmoved, ?_⟩, ?_⟩
      · rw [piecesRead_append, hdone, hreads, MainPhase.pending_getcmd, List.append_nil]
      · rintro line heq
        cases heq
      · rintro - heq
        cases heq
      · simp [commandLines, hcd]
    · refine ⟨done, ⟨hnul, ?_, ?_, hunmoved, ?_⟩, rfl⟩
      · rw [piecesRead_append, hdone, hreads, MainPhase.pending_fork, hline]
      · rintro other heq
        cases heq
        rwa [hline]
      · rintro - heq
        cases heq

/-- The line `main` forks for is dealt with. -/
theorem Reading.fork {t : Session Dir File} {line : CString} (hmain : s.main = .fork line)
    (ht : t.main = .wait) (hinput : t.input = s.input) :
    Reading input history t (done ++ [line.1]) ∧
      commandLines (done ++ [line.1]) = commandLines done ++ [line.1] := by
  have hdone := h.read
  rw [hmain] at hdone
  refine ⟨⟨hinput ▸ h.nulFree, ?_, ?_, ?_, ?_⟩, ?_⟩
  · rw [hdone, ht]
    simp
  · rintro other heq
    cases ht.symm.trans heq
  · rw [hinput]
    exact h.unmoved
  · rintro - heq
    cases ht.symm.trans heq
  · simp [commandLines, h.command line hmain]

/-- Between the lines, where nothing is read. -/
theorem Reading.goOn {t : Session Dir File} {events : List (SessionEvent Dir)}
    (ht : t.main = s.main ∨ s.main = .wait ∧ t.main = .getcmd) (hinput : t.input = s.input)
    (hread : piecesRead events = []) : Reading input (history ++ events) t done := by
  have hpieces : piecesRead (history ++ events) = piecesRead history := by
    rw [piecesRead_append, hread, List.append_nil]
  refine ⟨hinput ▸ h.nulFree, ?_, ?_, ?_, ?_⟩
  · rw [hpieces, h.read]
    rcases ht with heq | ⟨hwait, hget⟩
    · rw [heq]
    · rw [hwait, hget, MainPhase.pending_wait, MainPhase.pending_getcmd]
  · intro line heq
    rcases ht with hsame | ⟨-, hget⟩
    · exact h.command line (hsame ▸ heq)
    · cases hget.symm.trans heq
  · intro hnone
    rw [hpieces, hinput]
    exact h.unmoved (not_moved_of_append hnone)
  · intro hnone heq
    rcases ht with hsame | ⟨-, hget⟩
    · exact hinput ▸ h.exited (not_moved_of_append hnone) (hsame ▸ heq)
    · cases hget.symm.trans heq

/-- Another process moves the offset. -/
theorem Reading.stdin (rest : CString) :
    Reading input (history ++ [.moved]) { s with input := rest.1 } done where
  nulFree := rest.2
  read := by rw [piecesRead_append, h.read]; exact List.append_nil _
  command := h.command
  unmoved hnone := absurd (List.mem_append_right _ List.mem_cons_self) hnone
  exited hnone := absurd (List.mem_append_right _ List.mem_cons_self) hnone

end Reading

theorem Reading.start {input : Text} (hnul : (0 : UInt8) ∉ input) (fds : FdTable) (cwd : Dir)
    (files : File → Entry) (umask : Nat) :
    Reading input [] (Session.start input fds cwd files umask) [] := by
  refine ⟨hnul, rfl, ?_, fun _ => rfl, ?_⟩
  · rintro line heq
    cases heq
  · rintro - heq
    cases heq

end Histories

/-! ## Programs that are still to come -/

namespace Prog

/-- The programs the code and its children may still execute. -/
def argvs : Prog → List Argv
  | .close _ next | .dup _ next | .openFile _ _ _ next | .pipe next | .wait next => next.argvs
  | .fork child parent => child.argvs ++ parent.argvs
  | .execvp argv next => argv :: next.argvs
  | .exit => []

end Prog

namespace Process

def argvs (pr : Process) : List Argv :=
  match pr.status with
  | .running code => code.argvs
  | _ => []

end Process

namespace System

def argvs (sys : System) : Multiset Argv :=
  (sys.procs.map fun pr => (pr.argvs : Multiset Argv)).sum

variable {sys : System} {i : Nat} {pr : Process}

theorem argvs_setProc (hpr : sys.procs[i]? = some pr) (pr' : Process) :
    (sys.setProc i pr').argvs + (pr.argvs : Multiset Argv) =
      sys.argvs + (pr'.argvs : Multiset Argv) :=
  sum_map_set (fun pr => (pr.argvs : Multiset Argv)) hpr pr'

/-- What leaves one process and what it keeps were its own before. -/
theorem argvs_le_of_setProc (hpr : sys.procs[i]? = some pr) (pr' : Process) {made : Multiset Argv}
    (h : made + (pr'.argvs : Multiset Argv) ≤ pr.argvs) :
    made + (sys.setProc i pr').argvs ≤ sys.argvs := by
  apply le_of_add_le_add_right (a := (pr'.argvs : Multiset Argv))
  calc made + (sys.setProc i pr').argvs + pr'.argvs
      = made + pr'.argvs + (sys.setProc i pr').argvs := add_right_comm _ _ _
    _ ≤ pr.argvs + (sys.setProc i pr').argvs := add_le_add_left h _
    _ = sys.argvs + pr'.argvs := by rw [add_comm, argvs_setProc hpr]

/-- Whatever the result of a call, no program is executed that was not to come. -/
theorem argvs_call {code : Prog} {ok : Bool} {sys' : System} {events : List SysEvent}
    (hpr : sys.procs[i]? = some pr) (hstatus : pr.status = .running code)
    (hcall : sys.call i pr ok code = some (sys', events)) :
    (((execCalls events).map Prod.fst : List Argv) : Multiset Argv) + sys'.argvs ≤ sys.argvs := by
  cases code with
  | close fd next =>
      cases hcall
      exact argvs_le_of_setProc hpr _ (by simp [Process.argvs, hstatus, Process.goOn, Prog.argvs])
  | dup fd next =>
      cases hcall
      exact argvs_le_of_setProc hpr _ (by simp [Process.argvs, hstatus, Process.goOn, Prog.argvs])
  | openFile file flags perm next =>
      cases hcall
      apply argvs_le_of_setProc hpr
      simp [Process.argvs, hstatus, Process.goOn, Prog.argvs, execCalls]
  | pipe next =>
      simp only [call] at hcall
      split at hcall
      · cases hcall
        apply argvs_le_of_setProc hpr (pr.makePipe sys.nextPipe next)
        simp [Process.argvs, hstatus, Process.makePipe, Prog.argvs]
      · cases hcall
        exact argvs_le_of_setProc hpr _ (by simp [Process.argvs, hstatus, Process.goOn, Prog.argvs])
  | fork child parent =>
      have hsplit : (child.argvs : Multiset Argv) + (pr.goOn parent pr.fds).argvs ≤ pr.argvs := by
        simp [Process.argvs, hstatus, Process.goOn, Prog.argvs]
      have hparent := argvs_le_of_setProc hpr _ hsplit
      simp only [call] at hcall
      split at hcall
      · cases hcall
        refine le_trans (le_of_eq ?_) hparent
        simp [argvs, Process.argvs, add_comm]
      · cases hcall
        exact le_trans (add_le_add_left (Multiset.zero_le _) _) hparent
  | execvp argv next =>
      cases hcall
      apply argvs_le_of_setProc hpr
      cases ok <;> simp [Process.argvs, hstatus, Prog.argvs, execCalls]
  | wait next =>
      simp only [call] at hcall
      split at hcall
      · cases hcall
      · cases hcall
        exact argvs_le_of_setProc hpr _ (by simp [Process.argvs, hstatus, Process.goOn, Prog.argvs])
  | exit =>
      cases hcall
      exact argvs_le_of_setProc hpr _ (by simp [Process.argvs, hstatus, Prog.argvs])

theorem argvs_step {sys' : System} {action : SysAction} {events : List SysEvent}
    (hstep : sys.step action = some (sys', events)) :
    (((execCalls events).map Prod.fst : List Argv) : Multiset Argv) + sys'.argvs ≤ sys.argvs := by
  cases action with
  | call i ok =>
      obtain ⟨pr, code, hpr, hstatus, hcall⟩ := step_call_eq_some hstep
      exact argvs_call hpr hstatus hcall
  | reap i child =>
      simp only [step] at hstep
      split at hstep
      next pr ch hpr hch =>
        split at hstep
        next next hstatus hdone =>
          split at hstep
          next hparent =>
            cases hstep
            have hne : child ≠ i := by
              rintro rfl
              cases hpr.symm.trans hch
              cases hstatus.symm.trans hdone
            have hstopped : 0 + (Process.argvs { ch with status := .reaped } : Multiset Argv) ≤
              ch.argvs := by simp [Process.argvs, hdone]
            have hreaped := argvs_le_of_setProc hch _ hstopped
            have hpr' : (sys.setProc child { ch with status := .reaped }).procs[i]? = some pr := by
              rw [setProc, List.getElem?_set_ne hne, hpr]
            have hsame : 0 + ((pr.goOn next pr.fds).argvs : Multiset Argv) ≤ pr.argvs := by
              simp [Process.argvs, hstatus, Process.goOn, Prog.argvs]
            have hgoes := argvs_le_of_setProc hpr' _ hsame
            exact hgoes.trans (by simpa using hreaped)
          next => cases hstep
        next => cases hstep
      next => cases hstep
  | terminate i =>
      simp only [step] at hstep
      split at hstep
      next pr hpr =>
        split at hstep
        next argv hstatus =>
          cases hstep
          exact argvs_le_of_setProc hpr _ (by simp [Process.argvs, hstatus])
        next => cases hstep
      next => cases hstep

end System

/-! ## The code of a line -/

theorem runcmd_stage_argvs (stage : Stage) (next : Prog) (view : FdView) :
    (runcmd stage.tree next).argvs = (stageCalls stage view).map Prod.fst := by
  have hwrap : ∀ (redirs : List (Direction × Text)) (next : Prog),
      (runcmd (wrap (.exec (argvOf stage.words)) redirs) next).argvs =
        (stageCalls stage view).map Prod.fst := by
    intro redirs
    induction redirs using List.reverseRecOn with
    | nil =>
        intro next
        simp only [wrap, List.foldl_nil, runcmd, argvOf_zero, stageCalls]
        cases hwords : stage.words <;> simp [Prog.argvs]
    | append_singleton redirs redir ih =>
        intro next
        rw [wrap_append]
        simpa only [wrap, List.foldl_cons, List.foldl_nil, redircmd, runcmd, Prog.argvs] using
          ih .exit
  exact hwrap stage.redirs next

/-- Which programs a pipeline executes does not depend on its descriptors. -/
theorem runcmd_pipeline_argvs {stages : List Stage} (hstages : stages ≠ []) (next : Prog)
    (init : FdView) (inp : Option OpenObject) (n : Nat) :
    (runcmd (pipelineTree stages) next).argvs =
      (pipelineCalls init inp n stages).map Prod.fst := by
  induction stages generalizing next inp n with
  | nil => exact absurd rfl hstages
  | cons stage stages ih =>
      cases stages with
      | nil => exact runcmd_stage_argvs stage next _
      | cons second rest =>
          rw [pipelineTree_cons stage (List.cons_ne_nil _ _)]
          simp only [pipecmd, runcmd, Prog.argvs, pipelineCalls, List.map_append,
            runcmd_stage_argvs stage _ (plumbed stage inp (some (.pipeWrite n)) init)]
          rw [ih (List.cons_ne_nil _ _) _ (some (.pipeRead n)) (n + 1)]

/-- A line is parsed into the code of its stages, or rejected. -/
theorem childCode_cases (line : CString) :
    (∃ stages, Derives (tokens line.1) stages ∧
      childCode line = runcmd (pipelineTree stages) .exit) ∨
    ((∀ stages, ¬ Derives (tokens line.1) stages) ∧ childCode line = .exit) := by
  unfold childCode
  cases hparsed : parsecmd line with
  | ok tree =>
      obtain ⟨stages, hderives, rfl⟩ := (parsecmd_ok_iff line tree).mp hparsed
      exact .inl ⟨stages, hderives, rfl⟩
  | error halt =>
      refine .inr ⟨fun stages hderives => ?_, rfl⟩
      rw [(parsecmd_ok_iff line _).mpr ⟨stages, hderives, rfl⟩] at hparsed
      cases hparsed

theorem childCode_argvs (line : CString) (init : FdView) (n : Nat) :
    ∃ calls m, LineCalls init n line.1 calls m ∧ (childCode line).argvs = calls.map Prod.fst := by
  rcases childCode_cases line with ⟨stages, hderives, heq⟩ | ⟨hrejected, heq⟩
  · rw [heq]
    exact ⟨_, _, .pipeline hderives, runcmd_pipeline_argvs hderives.ne_nil .exit _ _ _⟩
  · rw [heq]
    exact ⟨[], n, .rejected hrejected, rfl⟩

/-! ## Whatever fails -/

section Sessions

variable {Dir File : Type*}

/-- The calls of `execvp` in the history of a session. -/
def executed (history : List (SessionEvent Dir)) : List ExecCall :=
  execCalls (callsMade history)

@[simp] theorem executed_nil : executed ([] : List (SessionEvent Dir)) = [] := rfl

@[simp] theorem executed_append (first second : List (SessionEvent Dir)) :
    executed (first ++ second) = executed first ++ executed second := by
  simp [executed]

theorem executed_moved : executed ([.moved] : List (SessionEvent Dir)) = [] := rfl

/-- The programs of the history and those still to come are among those of the
lines that have been read. -/
def Supplied (input : Text) (fds : FdTable) (history : List (SessionEvent Dir))
    (s : Session Dir File) : Prop :=
  ∃ done calls m, Reading input history s done ∧
    SessionCalls fds.get 0 (commandLines done) calls m ∧
    (((executed history).map Prod.fst : List Argv) : Multiset Argv) + s.sys.argvs ≤
      (calls.map Prod.fst : List Argv)

section Supplied

variable {input : Text} {fds : FdTable} {history : List (SessionEvent Dir)} {s : Session Dir File}
  (h : Supplied input fds history s)
include h

/-- A line is dealt with: its programs are still to come, unless the fork fails. -/
theorem Supplied.fork {t : Session Dir File} {line : CString} (hmain : s.main = .fork line)
    (ht : t.main = .wait) (hinput : t.input = s.input)
    (hargvs : t.sys.argvs ≤ s.sys.argvs + (childCode line).argvs) :
    Supplied input fds history t := by
  obtain ⟨done, calls, m, hreading, hcalls, hle⟩ := h
  obtain ⟨hreading', hlines⟩ := hreading.fork hmain ht hinput
  obtain ⟨more, k, hline, heq⟩ := childCode_argvs line fds.get m
  refine ⟨_, calls ++ more, k, hreading', hlines ▸ hcalls.snoc hline, ?_⟩
  calc (((executed history).map Prod.fst : List Argv) : Multiset Argv) + t.sys.argvs
      ≤ ((executed history).map Prod.fst : List Argv) +
          (s.sys.argvs + (childCode line).argvs) := add_le_add_right hargvs _
    _ = ((executed history).map Prod.fst : List Argv) + s.sys.argvs +
          (childCode line).argvs := (add_assoc _ _ _).symm
    _ ≤ (calls.map Prod.fst : List Argv) + (childCode line).argvs := add_le_add_left hle _
    _ = ((calls ++ more).map Prod.fst : List Argv) := by
        rw [heq, Multiset.coe_add, List.map_append]

/-- Nothing is read; some programs are executed, none is added. -/
theorem Supplied.goOn {t : Session Dir File} {events : List (SessionEvent Dir)}
    (ht : t.main = s.main ∨ s.main = .wait ∧ t.main = .getcmd) (hinput : t.input = s.input)
    (hread : piecesRead events = [])
    (hargvs : (((executed events).map Prod.fst : List Argv) : Multiset Argv) +
      t.sys.argvs ≤ s.sys.argvs) : Supplied input fds (history ++ events) t := by
  obtain ⟨done, calls, m, hreading, hcalls, hle⟩ := h
  refine ⟨done, calls, m, hreading.goOn ht hinput hread, hcalls, ?_⟩
  rw [executed_append, List.map_append, ← Multiset.coe_add, add_assoc]
  exact (add_le_add_right hargvs _).trans hle

variable [DecidableEq File] {naming : Naming Dir File}

theorem Supplied.step {t : Session Dir File} {action : SessionAction File}
    {events : List (SessionEvent Dir)} (hstep : s.Step naming action t events) :
    Supplied input fds (history ++ events) t := by
  cases hstep with
  | getcmd main rest cwd hmain hread =>
      obtain ⟨done, calls, m, hreading, hcalls, hle⟩ := h
      obtain ⟨done', hreading', hlines⟩ := hreading.getcmd cwd hmain hread
      refine ⟨done', calls, m, hreading', hlines ▸ hcalls, ?_⟩
      rwa [executed, callsMade_append, callsMade_reads, List.append_nil]
  | fork line p dir hmain =>
      rw [List.append_nil]
      refine h.fork hmain rfl rfl (le_of_eq ?_)
      simp [System.argvs, Session.withProcs, Session.procs, Process.argvs]
  | forkFails line p hmain =>
      rw [List.append_nil]
      exact h.fork hmain rfl rfl (Multiset.le_add_right _ _)
  | reap child ch hmain hch hparent hstatus =>
      refine h.goOn (.inr ⟨hmain, rfl⟩) rfl rfl ?_
      have hstopped : 0 + (Process.argvs { ch with status := .reaped } : Multiset Argv) ≤
        ch.argvs := by simp [Process.argvs, hstatus]
      exact System.argvs_le_of_setProc hch _ hstopped
  | waitFails hmain hreaped => exact h.goOn (.inr ⟨hmain, rfl⟩) rfl rfl (by simp)
  | process action sys made dir hadmits hsys =>
      refine h.goOn (.inl rfl) rfl (piecesRead_process _ _) ?_
      rw [executed, callsMade_process]
      exact System.argvs_step hsys
  | change files => exact h.goOn (.inl rfl) rfl rfl (by simp)

theorem Supplied.sharedStep {t : Session Dir File} {action : SharedAction File}
    {events : List (SessionEvent Dir)} (hstep : s.sharedStep naming action = some (t, events)) :
    Supplied input fds (history ++ events) t := by
  cases Session.sharedStep_inversion hstep with
  | session hstep => exact h.step hstep
  | stdin rest =>
      obtain ⟨done, calls, m, hreading, hcalls, hle⟩ := h
      refine ⟨done, calls, m, hreading.stdin rest, hcalls, ?_⟩
      rwa [executed_append, executed_moved, List.append_nil]

end Supplied

/-- At any time of any session, whatever fails, the programs that were given to
`execvp` are programs of stages of the lines `main` has read so far, each executed at
most as often as it stands there; and these lines are the input's, each read once, if
no other process has moved the offset. -/
theorem session_executes_only_input [DecidableEq File] (naming : Naming Dir File)
    (input : CString) {fds : FdTable} {cwd : Dir} {files : File → Entry} {umask : Nat}
    {history : List (SessionEvent Dir)}
    {s : Session Dir File}
    (hreach : Reach (Session.sharedStep naming) anyStep
      (Session.start input.1 fds cwd files umask) history s) :
    (∃ done calls m, piecesRead history = done ++ s.main.pending ∧
      SessionCalls fds.get 0 (commandLines done) calls m ∧
      ((executed history).map Prod.fst).Subperm (calls.map Prod.fst)) ∧
    (.moved ∉ history → piecesRead history ++ pieces s.input = pieces input.1) := by
  have hsupplied : Supplied input.1 fds history s := by
    refine hreach.invariant ?_ fun _ _ _ _ _ h _ hstep => h.sharedStep hstep
    exact ⟨[], [], 0, .start input.2 fds cwd files umask, .nil 0,
      by simp [Session.start, System.argvs]⟩
  obtain ⟨done, calls, m, hreading, hcalls, hle⟩ := hsupplied
  refine ⟨⟨done, calls, m, hreading.read, hcalls, ?_⟩, hreading.unmoved⟩
  exact Multiset.coe_le.mp ((Multiset.le_add_right _ _).trans hle)

end Sessions

/-- `a|b` and `c`. -/
def twoLines : CString := ⟨[97, 124, 98, 10, 99, 10], by decide⟩

/-- There is no process for the first line, and the file of `c` is not found. -/
def failingRun : List (SharedAction Text) :=
  [.session .getcmd, .session (.fork false (0, 0)), .session .waitFails, .session .getcmd,
    .session (.fork true (0, 0)), .session (.process (.call 0 false))]

theorem failingRun_isSome :
    (run (Session.sharedStep plainNames) (Session.start twoLines.1 terminalFds [] noFiles 18)
      failingRun).isSome := by
  decide +kernel

theorem session_executes_only_input_failingRun : ∃ history s done calls m,
    Reach (Session.sharedStep plainNames) anyStep
        (Session.start twoLines.1 terminalFds [] noFiles 18) history s ∧
      piecesRead history = done ++ s.main.pending ∧
      SessionCalls terminalFds.get 0 (commandLines done) calls m ∧
      (executed history).map Prod.fst = [argvOf [[99]]] ∧
      ((executed history).map Prod.fst).Subperm (calls.map Prod.fst) ∧
      piecesRead history ++ pieces s.input = pieces twoLines.1 := by
  have hreach := Reach.of_isSome failingRun (admitted_anyStep _ _) failingRun_isSome
  obtain ⟨⟨done, calls, m, hread, hcalls, hsub⟩, hunmoved⟩ :=
    session_executes_only_input plainNames twoLines hreach
  exact ⟨_, _, done, calls, m, hreach, hread, hcalls, by decide +kernel, hsub,
    hunmoved (by decide +kernel)⟩

end OsCourse.Shell
