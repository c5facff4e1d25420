import Mathlib.Data.List.Perm.Subperm
import OsCourse.Shell.Plumbing

/-! # Which redirection counts

The parser wraps every redirection of a stage around those read before it, and
`runcmd` carries them out from the outside in. So of several redirections in
one direction the textually first is carried out last, and it is the one a
program is executed with.
-/

namespace OsCourse.Shell

open Transition

/-- The files a stage names for a direction, in textual order. -/
def Stage.files (stage : Stage) (type : Direction) : List Text :=
  (stage.redirs.filter fun redir => redir.1 = type).map Prod.snd

/-- An `execvp` call of a stage. Of the files the stage names for a direction,
`choose` gives the one found at the descriptor of this direction. -/
structure CallOf (choose : List Text → Option Text) (stage : Stage) (call : ExecCall) : Prop where
  words : stage.words ≠ []
  argv : call.1 = argvOf stage.words
  redirected : ∀ type, ∀ file ∈ choose (stage.files type),
    call.2.get type.fd = some (type.open file)

/-- Only calls meeting `may` fail. -/
def failsOnly (may : Prog → Prop) (sys : System) : SysAction → Prop
  | .call i ok =>
      ok = true ∨ ∃ pr ∈ sys.procs[i]?, ∃ code, pr.status = .running code ∧ may code
  | _ => True

/-- The next call is a `fork` or an `execvp`. -/
def Prog.ForksOrExecs : Prog → Prop
  | .fork _ _ | .execvp _ _ => True
  | _ => False

/-- In every schedule in which every `open` and every `pipe` succeeds, the
`execvp` calls are made by different stages, each with the files chosen. -/
def Redirected (choose : List Text → Option Text) (stages : List Stage) (start : System) : Prop :=
  ∀ history sys, Reach System.step (failsOnly Prog.ForksOrExecs) start history sys →
    ∃ ran, List.Subperm ran stages ∧ List.Forall₂ (CallOf choose) ran (execCalls history)

/-! ## Calls that are lost -/

/-- The code makes no `execvp` call. -/
def Prog.NoExec : Prog → Prop
  | .close _ next | .dup _ next | .openFile _ _ _ next | .pipe next | .wait next => next.NoExec
  | .fork child parent => child.NoExec ∧ parent.NoExec
  | .execvp _ _ => False
  | .exit => True

theorem Prog.NoExec.calls_eq {code : Prog} (h : code.NoExec) (p : Nat × Nat) (fds : FdTable)
    (n : Nat) : code.calls p fds n = [] := by
  induction code generalizing p fds n with
  | close fd next ih => exact ih h p _ n
  | dup fd next ih => exact ih h p _ n
  | openFile file flags perm next ih => exact ih h p _ n
  | pipe next ih => exact ih h _ _ _
  | fork child parent ihc ihp => simp only [calls, ihc h.1, ihp h.2, List.append_nil]
  | execvp argv next ih => exact h.elim
  | wait next ih => exact ih h p fds n
  | exit => rfl

/-- A failure of the next call loses no `execvp` call but those of a child. -/
def Prog.MayFail : Prog → Prop
  | .fork _ _ | .execvp _ _ => True
  | .openFile _ _ _ next => next.NoExec
  | _ => False

/-- The calls made so far and those still to be made are among `total`. -/
structure Contained (total : Multiset ExecCall) (history : List SysEvent) (sys : System) :
    Prop where
  le : (execCalls history : Multiset ExecCall) + sys.calls ≤ total
  orderly : sys.Orderly

/-- A `fork` that fails loses the calls of the child. -/
theorem calls_failedFork_le {sys : System} {i : Nat} {pr : Process} {child parent : Prog}
    (hpr : sys.procs[i]? = some pr) (hstatus : pr.status = .running (.fork child parent)) :
    (sys.setProc i (pr.goOn parent pr.fds)).calls ≤ sys.calls := by
  have hsum := System.calls_setProc hpr (pr.goOn parent pr.fds)
  have hold : (pr.calls sys.nextPipe : Multiset ExecCall) =
      child.calls pr.p pr.fds sys.nextPipe + parent.calls pr.p pr.fds sys.nextPipe := by
    simp only [Process.calls, hstatus, Prog.calls, Multiset.coe_add]
  have hnew : (pr.goOn parent pr.fds).calls sys.nextPipe =
      parent.calls pr.p pr.fds sys.nextPipe := rfl
  rw [hold, hnew, ← add_assoc] at hsum
  rw [← add_right_cancel hsum]
  exact Multiset.le_add_right _ _

theorem Contained.step {total : Multiset ExecCall} {history : List SysEvent} {sys sys' : System}
    {events : List SysEvent} {action : SysAction} (h : Contained total history sys)
    (hok : failsOnly Prog.MayFail sys action) (hstep : sys.step action = some (sys', events)) :
    Contained total (history ++ events) sys' := by
  have hnow : Balanced ((execCalls history : Multiset ExecCall) + sys.calls) history sys :=
    ⟨rfl, h.orderly⟩
  have hsucceeds : callsSucceed sys action → Contained total (history ++ events) sys' := by
    intro hsucceed
    have hbalanced := hnow.step hsucceed hstep
    exact ⟨hbalanced.balance ▸ h.le, hbalanced.orderly⟩
  cases action with
  | call i ok =>
      rcases hok with hok | ⟨pr, hpr, code, hstatus, hmay⟩
      · exact hsucceeds (.inl hok)
      · cases ok with
        | true => exact hsucceeds (.inl rfl)
        | false =>
            have hregular := h.orderly.regular pr (List.mem_of_getElem? hpr) code hstatus
            simp only [System.step, Option.mem_def.mp hpr, hstatus] at hstep
            cases code with
            | fork child parent =>
                cases hstep
                refine ⟨?_, h.orderly.setProc hpr ?_ ?_⟩
                · rw [List.append_nil]
                  exact (add_le_add_right (calls_failedFork_le hpr hstatus) _).trans h.le
                · rintro _ heq
                  cases heq
                  exact hregular.2.2
                · rintro hfree _ heq
                  cases heq
                  exact (hfree _ hstatus).2
            | execvp argv next => exact hsucceeds (.inr ⟨pr, hpr, argv, next, hstatus⟩)
            | openFile file flags perm next =>
                cases hstep
                have hnone : next.calls pr.p pr.fds sys.nextPipe = next.calls pr.p
                    (pr.fds.fill (.file file flags)) sys.nextPipe := by
                  rw [Prog.NoExec.calls_eq hmay, Prog.NoExec.calls_eq hmay]
                have hspec : CallSpec sys (sys.setProc i (pr.goOn next pr.fds))
                    [.opened i file flags perm false] :=
                  .goOn h.orderly hpr hstatus rfl hnone id id (Nat.lt_succ_self _)
                have hbalanced := hnow.call hspec
                exact ⟨hbalanced.balance ▸ h.le, hbalanced.orderly⟩
            | _ => exact hmay.elim
  | reap i child => exact hsucceeds trivial
  | terminate i => exact hsucceeds trivial

/-! ## The calls of a pipeline -/

theorem redirected_eq_head? (stage : Stage) (type : Direction) :
    stage.redirected type = (stage.files type).head?.map type.open := by
  rw [Stage.redirected, Stage.files, List.head?_map, List.head?_filter, Option.map_map]
  rfl

theorem callOf_of_stageCalls {stage : Stage} {fds : FdTable} {call : ExecCall}
    (h : call.view ∈ stageCalls stage (plumbed stage (fds.get 0) (fds.get 1) fds.get)) :
    CallOf List.head? stage call := by
  have hview := mem_stageCalls h
  unfold stageCalls at h
  split at h
  · cases h
  next hwords =>
    have hargv : call.1 = argvOf stage.words := congrArg Prod.fst (List.mem_singleton.mp h)
    refine ⟨hwords, hargv, ?_⟩
    intro type file hfile
    have hredirected : stage.redirected type = some (type.open file) := by
      rw [redirected_eq_head?, Option.mem_def.mp hfile, Option.map_some]
    have hfd := congrFun hview type.fd
    simp only [ExecCall.view] at hfd
    rw [hfd]
    cases type with
    | input => simp only [Direction.fd, plumbed, hredirected, Option.some_or]
    | output => simp only [Direction.fd, plumbed, hredirected, Option.some_or]

/-- The stages that execute a program. -/
def executing (stages : List Stage) : List Stage :=
  stages.filter fun stage => !stage.words.isEmpty

theorem callOf_stage {fds : FdTable} (h : fds.get 0 ≠ none) (stage : Stage) (next : Prog)
    (p : Nat × Nat) (n : Nat) :
    List.Forall₂ (CallOf List.head?) (executing [stage])
      ((runcmd stage.tree next).calls p fds n) := by
  have hcalls := calls_stage h stage next p n
  have hcall : ∀ call ∈ (runcmd stage.tree next).calls p fds n, CallOf List.head? stage call := by
    intro call hcall
    exact callOf_of_stageCalls (hcalls ▸ List.mem_map_of_mem hcall)
  have hlength := congrArg List.length hcalls
  rw [List.length_map] at hlength
  by_cases hwords : stage.words = []
  · rw [stageCalls, if_pos hwords, List.length_nil] at hlength
    rw [List.length_eq_zero_iff.mp hlength]
    simp [executing, hwords]
  · rw [stageCalls, if_neg hwords, List.length_singleton] at hlength
    obtain ⟨call, hsingle⟩ := List.length_eq_one_iff.mp hlength
    rw [hsingle] at hcall ⊢
    have hexecuting : executing [stage] = [stage] := by simp [executing, hwords]
    rw [hexecuting]
    exact .cons (hcall call (List.mem_singleton.mpr rfl)) .nil

section ZeroOpen

variable {fds : FdTable} (h : fds.get 0 ≠ none) (n : Nat)
include h

theorem lowest_pos : 0 < fds.lowest := by
  apply Nat.pos_of_ne_zero
  intro hzero
  exact h (hzero ▸ fds.get_lowest)

theorem get_zero_piped : (piped fds n).get 0 ≠ none := by
  have hr := lowest_pos h
  have hw := lowest_lt_lowest_fill fds n
  simpa [piped, show 0 ≠ fds.lowest by omega,
    show 0 ≠ (fds.fill (.pipeRead n)).lowest by omega] using h

/-- The writing side of a pipe keeps descriptor 0. -/
theorem get_zero_connect_write :
    (connect (piped fds n) 1 (fds.fill (.pipeRead n)).lowest fds.lowest
      (fds.fill (.pipeRead n)).lowest).get 0 ≠ none := by
  have hr := lowest_pos h
  have hw := lowest_lt_lowest_fill fds n
  have hzero : ((piped fds n).clear 1).get 0 ≠ none := by simpa using get_zero_piped h n
  rw [connect, SlotTable.get_clear, if_neg (by omega), SlotTable.get_clear, if_neg (by omega),
    Process.dup]
  split
  · rw [SlotTable.get_fill]
    split
    · simp
    · exact hzero
  · exact hzero

/-- The reading side of a pipe gets the read end at descriptor 0. -/
theorem get_zero_connect_read :
    (connect (piped fds n) 0 fds.lowest (fds.fill (.pipeRead n)).lowest fds.lowest).get 0 ≠
      none := by
  have hr := lowest_pos h
  have hw := lowest_lt_lowest_fill fds n
  have hread : ((piped fds n).clear 0).get fds.lowest = some (.pipeRead n) := by
    simp [piped, show fds.lowest ≠ 0 by omega,
      show fds.lowest ≠ (fds.fill (.pipeRead n)).lowest by omega]
  have hlowest : ((piped fds n).clear 0).lowest = 0 := lowest_clear (get_zero_piped h n) .input
  rw [connect, SlotTable.get_clear, if_neg (by omega), SlotTable.get_clear, if_neg (by omega),
    Process.dup, hread]
  simp [hlowest]

end ZeroOpen

/-- With descriptor 0 open at the start, every stage calls `execvp` with the
textually first file of either direction. -/
theorem callOf_pipeline {fds : FdTable} (h : fds.get 0 ≠ none) {stages : List Stage}
    (hstages : stages ≠ []) (next : Prog) (p : Nat × Nat) (n : Nat) :
    List.Forall₂ (CallOf List.head?) (executing stages)
      ((runcmd (pipelineTree stages) next).calls p fds n) := by
  induction stages generalizing fds next p n with
  | nil => exact absurd rfl hstages
  | cons stage stages ih =>
      cases stages with
      | nil => exact callOf_stage h stage next p n
      | cons second rest =>
          rw [pipelineTree_cons stage (List.cons_ne_nil _ _)]
          have hsplit : executing (stage :: second :: rest) =
              executing [stage] ++ executing (second :: rest) := List.filter_append [stage] _
          rw [hsplit]
          simp only [pipecmd, runcmd, Prog.calls, Operand.eval]
          apply List.rel_append
          · exact callOf_stage (get_zero_connect_write h n) stage _ _ _
          · exact ih (get_zero_connect_read h n) (List.cons_ne_nil _ _) _ _ _

/-- Calls made by some stages were made by as many of them. -/
theorem exists_callers {choose : List Text → Option Text} {stages : List Stage}
    {calls made : List ExecCall} (h : List.Forall₂ (CallOf choose) stages calls)
    (hmade : List.Subperm made calls) :
    ∃ ran, List.Subperm ran stages ∧ List.Forall₂ (CallOf choose) ran made := by
  obtain ⟨ordered, hperm, hsublist⟩ := hmade
  obtain ⟨callers, hcallers, hcallersSub⟩ :
      ∃ callers, List.Forall₂ (CallOf choose) callers ordered ∧ callers.Sublist stages := by
    clear hperm
    induction hsublist generalizing stages with
    | slnil => exact ⟨[], .nil, List.nil_sublist _⟩
    | cons call _ ih =>
        obtain - | ⟨-, hrest⟩ := h
        obtain ⟨callers, hcallers, hsub⟩ := ih hrest
        exact ⟨callers, hcallers, hsub.cons _⟩
    | cons_cons call _ ih =>
        obtain - | ⟨hcall, hrest⟩ := h
        obtain ⟨callers, hcallers, hsub⟩ := ih hrest
        exact ⟨_ :: callers, .cons hcall hcallers, hsub.cons_cons _⟩
  obtain ⟨ran, hran, hranPerm⟩ := List.perm_comp_forall₂ hperm.symm hcallers.flip
  exact ⟨ran, ⟨callers, hranPerm.symm, hcallersSub⟩, hran.flip⟩

/-- In a run that loses calls only with a child that was not created, the calls
are made by different stages. -/
theorem exists_callers_of_reach {stages : List Stage} (hstages : stages ≠ []) (p : Nat × Nat)
    {fds : FdTable} (h : fds.get 0 ≠ none) (n : Nat) {history : List SysEvent} {sys : System}
    (hreach : Reach System.step (failsOnly Prog.MayFail)
      (startCmd (pipelineTree stages) p fds n) history sys) :
    ∃ ran, List.Subperm ran stages ∧
      List.Forall₂ (CallOf List.head?) ran (execCalls history) := by
  have hstart := Balanced.start none _ p fds n (runcmd_pipeline_regular hstages .exit)
  have hcontained : Contained _ history sys :=
    hreach.invariant ⟨hstart.balance.le, hstart.orderly⟩
      (fun _ _ _ _ _ hinv hok hstep => hinv.step hok hstep)
  have hmade : List.Subperm (execCalls history)
      ((runcmd (pipelineTree stages) .exit).calls p fds n) :=
    Multiset.coe_le.mp ((Multiset.le_add_right _ _).trans hcontained.le)
  obtain ⟨ran, hran, hcalls⟩ := exists_callers (callOf_pipeline h hstages .exit p n) hmade
  exact ⟨ran, hran.trans List.filter_sublist.subperm, hcalls⟩

theorem failsOnly_mono {may may' : Prog → Prop} (h : ∀ code, may code → may' code)
    {sys : System} {action : SysAction} (hok : failsOnly may sys action) :
    failsOnly may' sys action := by
  cases action with
  | call i ok =>
      refine hok.imp_right ?_
      rintro ⟨pr, hpr, code, hstatus, hmay⟩
      exact ⟨pr, hpr, code, hstatus, h code hmay⟩
  | reap i child => trivial
  | terminate i => trivial

theorem forksOrExecs_mayFail (code : Prog) (h : code.ForksOrExecs) : code.MayFail := by
  cases code with
  | fork child parent => trivial
  | execvp argv next => trivial
  | _ => exact h.elim

/-- With descriptor 0 open at the start, as for a shell that reads its commands
from it, the textually first redirection of either direction counts. -/
theorem runcmd_firstRedirection (s : CString) (tree : Cmd) (hparse : parsecmd s = .ok tree)
    (p : Nat × Nat) (fds : FdTable) (n : Nat) (hzero : fds.get 0 ≠ none) :
    ∃ stages, Derives (tokens s.1) stages ∧ tree = pipelineTree stages ∧
      Redirected List.head? stages (startCmd tree p fds n) := by
  obtain ⟨stages, hderives, rfl⟩ := (parsecmd_ok_iff s tree).mp hparse
  refine ⟨stages, hderives, rfl, ?_⟩
  intro history sys hreach
  apply exists_callers_of_reach hderives.ne_nil p hzero n
  exact hreach.mono fun _ _ hok => failsOnly_mono forksOrExecs_mayFail hok

/-- `a>f>g`. -/
def doubleOutput : CString := ⟨[97, 62, 102, 62, 103], by decide⟩

/-- Its only stage. -/
def doubleOutputStage : Stage := [.word [97], .redir .output [102], .redir .output [103]]

theorem runcmd_firstRedirection_doubleOutput :
    ∃ stages, Derives (tokens doubleOutput.1) stages ∧
      pipelineTree [doubleOutputStage] = pipelineTree stages ∧
      Redirected List.head? stages (startCmd (pipelineTree stages) (0, 0) terminalFds 0) := by
  obtain ⟨stages, hderives, htree, hredirected⟩ := runcmd_firstRedirection doubleOutput
    (pipelineTree [doubleOutputStage]) (by decide) (0, 0) terminalFds 0 (by decide)
  exact ⟨stages, hderives, htree, htree ▸ hredirected⟩

theorem admitted_replicate (may : Prog → Prop) (sys : System) (i k : Nat) :
    Admitted System.step (failsOnly may) sys (List.replicate k (.call i true)) := by
  induction k generalizing sys with
  | zero => trivial
  | succ k ih => exact ⟨Or.inl rfl, fun r _ => ih r.1⟩

/-- The program of `a>f>g` is executed with `f` at descriptor 1. -/
theorem doubleOutput_not_last :
    parsecmd doubleOutput = .ok (pipelineTree [doubleOutputStage]) ∧
      Derives (tokens doubleOutput.1) [doubleOutputStage] ∧
      ¬Redirected List.getLast? [doubleOutputStage]
        (startCmd (pipelineTree [doubleOutputStage]) (0, 0) terminalFds 0) := by
  have hparse : parsecmd doubleOutput = .ok (pipelineTree [doubleOutputStage]) := by decide
  have htokens : tokens doubleOutput.1 = doubleOutputStage.tokens := by
    simp [doubleOutput, doubleOutputStage, tokens, symbol, whitespace, isWordByte,
      Stage.tokens, Item.tokens]
  refine ⟨hparse, htokens ▸ .last doubleOutputStage (by decide), ?_⟩
  intro hlast
  -- two redirections, each a `close` and an `open`, and then `execvp`
  have hreach := Reach.of_isSome (List.replicate 5 (SysAction.call 0 true))
    (admitted_replicate Prog.ForksOrExecs
      (startCmd (pipelineTree [doubleOutputStage]) (0, 0) terminalFds 0) 0 5) (by decide)
  obtain ⟨ran, hran, hcalls⟩ := hlast _ _ hreach
  obtain ⟨stage, rfl⟩ : ∃ stage, ran = [stage] := by
    apply List.length_eq_one_iff.mp
    rw [hcalls.length_eq]
    decide
  obtain rfl : stage = doubleOutputStage :=
    List.mem_singleton.mp (hran.subset (List.mem_singleton.mpr rfl))
  obtain - | ⟨hcall, -⟩ := hcalls
  exact absurd (hcall.redirected .output [103] (by decide)) (by decide)

end OsCourse.Shell
