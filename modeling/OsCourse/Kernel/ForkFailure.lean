import OsCourse.Kernel.Killed

/-! # Failed forks

`fork` fails when no slot is free, when `allocproc` gets no kernel stack, and
when `copyuvm` gets no page table. In the last two cases the slot goes back to
UNUSED, but keeps the pid that `allocproc` wrote.
-/

namespace OsCourse.Kernel

open Transition State

variable {nproc ncpu : Nat} {k k' : State nproc ncpu} {c : Fin ncpu}

/-- The ways a call of `fork` can fail. -/
inductive ForkFailure
  /-- no UNUSED slot -/
  | noSlot
  /-- `kalloc` fails in `allocproc` -/
  | noKstack
  /-- `copyuvm` fails -/
  | noPgdir
  deriving DecidableEq, Repr

/-- The steps of the call on CPU `c`. -/
def ForkFailure.steps (c : Fin ncpu) : ForkFailure → List (Action nproc ncpu)
  | .noSlot => [.forkAlloc c]
  | .noKstack => [.forkAlloc c, .forkKalloc c false]
  | .noPgdir => [.forkAlloc c, .forkKalloc c true, .forkCopy c false]

/-- The process on CPU `c` calls `fork`, which returns -1. -/
def FailedFork (c : Fin ncpu) (k k' : State nproc ncpu) : Prop :=
  ∃ failure : ForkFailure, ∃ p events, k.caller c = some p ∧
    run State.step k (failure.steps c) = some (k', events) ∧
    events.getLast? = some (.fork (k.proc p).pid (-1))

/-- Every slot has the same state, pid, parent and killed flag, and every `kill`
has the same result. -/
structure LeavesTable (k k' : State nproc ncpu) : Prop where
  state : ∀ i, (k'.proc i).state = (k.proc i).state
  pid : ∀ i, (k'.proc i).pid = (k.proc i).pid
  parent : ∀ i, (k'.proc i).parent = (k.proc i).parent
  killed : ∀ i, (k'.proc i).killed = (k.proc i).killed
  kills : ∀ d pid, (k'.step (.kill d pid)).map Prod.snd = (k.step (.kill d pid)).map Prod.snd

/-- What is left of a slot that was taken and given back: everything but the pid
is as before. -/
structure GaveBack (k k' : State nproc ncpu) (np : Fin nproc) : Prop where
  cpu : k'.cpu = k.cpu
  state : ∀ i, (k'.proc i).state = (k.proc i).state
  pid : ∀ i, (k'.proc i).pid = if i = np then k.nextpid else (k.proc i).pid
  parent : ∀ i, (k'.proc i).parent = (k.proc i).parent
  killed : ∀ i, (k'.proc i).killed = (k.proc i).killed
  forking : ∀ i, (k'.proc i).forking = (k.proc i).forking

theorem forkingAt_setForking {p : Fin nproc} (hc : k.cpu c = some p) (np : Fin nproc)
    (stage : ForkStage) :
    (k.setForking p (some (np, stage))).forkingAt c stage = some (p, np) := by
  simp [forkingAt, setForking, hc]

/-- `kalloc` or `copyuvm` fails. -/
theorem step_abort {p np : Fin nproc} {stage : ForkStage}
    (h : k.forkingAt c stage = some (p, np)) {a : Action nproc ncpu}
    (ha : (stage = .allocated ∧ a = .forkKalloc c false) ∨
      (stage = .kstack ∧ a = .forkCopy c false)) :
    k.step a = some (k.abortFork p np, [.fork (k.proc p).pid (-1)]) := by
  rcases ha with ⟨rfl, rfl⟩ | ⟨rfl, rfl⟩
  · simp [State.step, h]
  · simp [State.step, h]

theorem FailedFork.cases (h : FailedFork c k k') :
    (findUnused k.proc = none ∧ k' = k) ∨
      ∃ np, findUnused k.proc = some np ∧ GaveBack k k' np := by
  obtain ⟨failure, p, events, hcaller, hrun, hlast⟩ := h
  obtain ⟨hc, hidle⟩ := caller_eq_some hcaller
  cases hfind : findUnused k.proc with
  | none =>
      refine .inl ⟨rfl, ?_⟩
      have hstuck : ∀ stage, k.forkingAt c stage = none := by simp [forkingAt, hc, hidle]
      cases failure with
      | noSlot =>
          simp only [ForkFailure.steps, run, State.step, hcaller, hfind, Option.map_some,
            Option.bind_some, Option.some.injEq, Prod.mk.injEq] at hrun
          exact hrun.1.symm
      | noKstack => simp [ForkFailure.steps, run, State.step, hcaller, hfind, hstuck] at hrun
      | noPgdir => simp [ForkFailure.steps, run, State.step, hcaller, hfind, hstuck] at hrun
  | some np =>
      refine .inr ⟨np, rfl, ?_⟩
      have hunused := findUnused_some hfind
      have hfirst : k.step (.forkAlloc c) = some
          ((k.allocSlot np).setForking p (some (np, .allocated)), [.alloc np k.nextpid]) := by
        simp only [State.step, hcaller, hfind, Option.map_some]
      have halloc := forkingAt_setForking (k := k.allocSlot np) hc np .allocated
      cases failure with
      | noSlot =>
          simp only [ForkFailure.steps, run, hfirst, Option.bind_some, Option.map_some,
            Option.some.injEq, Prod.mk.injEq] at hrun
          obtain ⟨-, rfl⟩ := hrun
          simp at hlast
      | noKstack =>
          have hlaststep := step_abort halloc (.inl ⟨rfl, rfl⟩)
          simp only [ForkFailure.steps, run, hfirst, hlaststep, Option.bind_some,
            Option.map_some, Option.some.injEq, Prod.mk.injEq] at hrun
          obtain ⟨rfl, -⟩ := hrun
          constructor <;>
            simp only [abortFork, setForking, allocSlot, setProc_proc, setProc_cpu] <;> grind
      | noPgdir =>
          generalize hk₁ : (k.allocSlot np).setForking p (some (np, .allocated)) = k₁ at *
          have hsecond : k₁.step (.forkKalloc c true) =
              some ((k₁.setProc np { k₁.proc np with context := .forkret }).setForking p
                (some (np, .kstack)), []) := by
            simp [State.step, halloc]
          have hc₁ : (k₁.setProc np { k₁.proc np with context := .forkret }).cpu c = some p := by
            rw [← hk₁]
            exact hc
          have hlaststep := step_abort (forkingAt_setForking hc₁ np .kstack) (.inr ⟨rfl, rfl⟩)
          simp only [ForkFailure.steps, run, hfirst, hsecond, hlaststep, Option.bind_some,
            Option.map_some, Option.some.injEq, Prod.mk.injEq] at hrun
          obtain ⟨rfl, -⟩ := hrun
          subst hk₁
          constructor <;>
            simp only [abortFork, setForking, allocSlot, setProc_proc, setProc_cpu] <;> grind

/-- `kill` sees only the pids. -/
theorem kill_events_congr {d : Fin ncpu} (hcaller : k'.caller d = k.caller d)
    (hpid : ∀ i, (k'.proc i).pid = (k.proc i).pid) (pid : Int) :
    (k'.step (.kill d pid)).map Prod.snd = (k.step (.kill d pid)).map Prod.snd := by
  have hfind : findPid k'.proc pid = findPid k.proc pid := by simp only [findPid, hpid]
  simp only [State.step, hcaller, hfind, Option.map_map]
  congr 1
  funext p
  cases findPid k.proc pid with
  | none => rfl
  | some i => rfl

/-- A failed `fork` leaves the table as it was exactly when there was no slot to
take, or the slot already had the next pid. -/
theorem failedFork_leavesTable_iff (h : FailedFork c k k') : LeavesTable k k' ↔
    findUnused k.proc = none ∨ ∃ np, findUnused k.proc = some np ∧ (k.proc np).pid = k.nextpid := by
  rcases h.cases with ⟨hnone, rfl⟩ | ⟨np, hnp, hback⟩
  · exact iff_of_true ⟨fun _ => rfl, fun _ => rfl, fun _ => rfl, fun _ => rfl, fun _ _ => rfl⟩
      (.inl hnone)
  · constructor
    · intro hleaves
      refine .inr ⟨np, hnp, ?_⟩
      rw [← hleaves.pid np, hback.pid, if_pos rfl]
    · rintro (hnone | ⟨np', hnp', hpid⟩)
      · cases hnone.symm.trans hnp
      · cases hnp'.symm.trans hnp
        have hsame : ∀ i, (k'.proc i).pid = (k.proc i).pid := by
          intro i
          rw [hback.pid]
          split
          next heq => rw [heq, hpid]
          next => rfl
        refine ⟨hback.state, hsame, hback.parent, hback.killed, fun d => kill_events_congr ?_ hsame⟩
        simp only [caller, hback.cpu, hback.forking]

/-- `initproc` calls `fork`, and there is no memory for a kernel stack. -/
theorem failedFork_initRuns : ∃ k', FailedFork 0 (afterInitRuns 0) k' ∧
    (k'.step (.kill 0 2)).map Prod.snd = some [.kill 2 0] := by
  have hrun : (run State.step (afterInitRuns 0) (ForkFailure.noKstack.steps 0)).map
      (fun r => (r.2, (r.1.step (.kill 0 2)).map Prod.snd)) =
      some ([.alloc 1 2, .fork 1 (-1)], some [.kill 2 0]) := by decide +kernel
  obtain ⟨⟨k', events⟩, hstep, heq⟩ := Option.map_eq_some_iff.mp hrun
  simp only [Prod.mk.injEq] at heq
  refine ⟨k', ⟨.noKstack, 0, events, by decide +kernel, hstep, ?_⟩, heq.2⟩
  rw [heq.1]
  decide +kernel

theorem failedFork_leavesTable_iff_initRuns :
    ∃ k', FailedFork 0 (afterInitRuns 0) k' ∧ (LeavesTable (afterInitRuns 0) k' ↔
      findUnused (afterInitRuns 0).proc = none ∨ ∃ np,
        findUnused (afterInitRuns 0).proc = some np ∧
          ((afterInitRuns 0).proc np).pid = (afterInitRuns 0).nextpid) := by
  obtain ⟨k', hfailed, -⟩ := failedFork_initRuns
  exact ⟨k', hfailed, failedFork_leavesTable_iff hfailed⟩

/-- The slot is left with the pid 2, and `kill(2)`, which failed before, succeeds. -/
theorem failedFork_leaves_pid : ∃ history k',
    Reach State.step anyStep (.boot 2 1) history (afterInitRuns 0) ∧
      FailedFork 0 (afterInitRuns 0) k' ∧ ¬ LeavesTable (afterInitRuns 0) k' := by
  have hreach := Reach.of_isSome (initRuns 0) (admitted_anyStep _ _) (initRuns_isSome 0)
  have hbefore : ((afterInitRuns 0).step (.kill 0 2)).map Prod.snd = some [.kill 2 (-1)] := by
    decide +kernel
  obtain ⟨k', hfailed, hafter⟩ := failedFork_initRuns
  refine ⟨_, k', hreach, hfailed, fun hleaves => ?_⟩
  have hkill := hleaves.kills 0 2
  rw [hafter, hbefore] at hkill
  cases hkill

end OsCourse.Kernel
