import OsCourse.Kernel.Effects

/-! # CPUs and the slots they run

The RUNNING slots and the busy CPUs correspond to each other whenever
`ptable.lock` is free. `fork` writes the state of its new slot without looking
at it, so the correspondence rests on that slot being an EMBRYO, in the hands
of one `fork` only.
-/

namespace OsCourse.Kernel

open Transition

variable {nproc ncpu : Nat}

namespace State

/-- Each busy CPU runs a RUNNING slot of its own, each RUNNING slot is on a CPU,
and the slot of a `fork` in progress is an EMBRYO no other `fork` works on. -/
structure Consistent (k : State nproc ncpu) : Prop where
  running_of_cpu : ∀ c p, k.cpu c = some p → (k.proc p).state = .running
  cpu_injective : ∀ c d p, k.cpu c = some p → k.cpu d = some p → c = d
  cpu_of_running : ∀ p, (k.proc p).state = .running → ∃ c, k.cpu c = some p
  embryo_of_forking : ∀ p np stage, (k.proc p).forking = some (np, stage) →
    (k.proc np).state = .embryo
  forking_injective : ∀ p q np stage stage', (k.proc p).forking = some (np, stage) →
    (k.proc q).forking = some (np, stage') → p = q

/-- A slot keeps its state, or changes it from one that no CPU and no `fork` has
to do with to one other than RUNNING. -/
def CalmAt (k k' : State nproc ncpu) (q : Fin nproc) : Prop :=
  (k'.proc q).state = (k.proc q).state ∨
    ((k.proc q).state ≠ .running ∧ (k.proc q).state ≠ .embryo ∧ (k'.proc q).state ≠ .running)

theorem boot_consistent : (boot nproc ncpu).Consistent := by
  constructor <;> simp [boot, Proc.zero]

namespace Consistent

variable {k k' : State nproc ncpu} (hk : k.Consistent)
include hk

theorem ne_of_forking {c : Fin ncpu} {p np : Fin nproc} {stage : ForkStage}
    (hc : k.cpu c = some p) (hfork : (k.proc p).forking = some (np, stage)) : np ≠ p := by
  intro heq
  have hembryo := hk.embryo_of_forking p np stage hfork
  rw [heq, hk.running_of_cpu c p hc] at hembryo
  cases hembryo

/-- No CPU and no `fork` is involved. -/
theorem calm (hcpu : k'.cpu = k.cpu)
    (hforking : ∀ q, (k'.proc q).forking = (k.proc q).forking)
    (hcalm : ∀ q, CalmAt k k' q) : k'.Consistent := by
  refine ⟨?_, ?_, ?_, ?_, ?_⟩
  · intro c p hc
    rw [hcpu] at hc
    have hrunning := hk.running_of_cpu c p hc
    rcases hcalm p with heq | ⟨hne, -, -⟩
    · rw [heq, hrunning]
    · exact absurd hrunning hne
  · rw [hcpu]
    exact hk.cpu_injective
  · intro p hp
    rw [hcpu]
    rcases hcalm p with heq | ⟨-, -, hne⟩
    · exact hk.cpu_of_running p (heq ▸ hp)
    · exact absurd hp hne
  · intro p np stage hfork
    rw [hforking] at hfork
    have hembryo := hk.embryo_of_forking p np stage hfork
    rcases hcalm np with heq | ⟨-, hne, -⟩
    · rw [heq, hembryo]
    · exact absurd hembryo hne
  · intro p q np stage stage'
    rw [hforking, hforking]
    exact hk.forking_injective p q np stage stage'

/-- A process gives up its CPU. -/
theorem park {c : Fin ncpu} {p : Fin nproc} (hc : k.cpu c = some p)
    (hcpu : ∀ d, k'.cpu d = if d = c then none else k.cpu d)
    (hforking : ∀ q, (k'.proc q).forking = (k.proc q).forking)
    (hp : (k'.proc p).state ≠ .running) (hcalm : ∀ q, q ≠ p → CalmAt k k' q) :
    k'.Consistent := by
  have hrunning := hk.running_of_cpu c p hc
  refine ⟨?_, ?_, ?_, ?_, ?_⟩
  · intro d q hd
    rw [hcpu] at hd
    split at hd
    next => cases hd
    next hdc =>
      -- the other CPUs run other slots
      have hqp : q ≠ p := fun heq => hdc (hk.cpu_injective d c p (heq ▸ hd) hc)
      have hq := hk.running_of_cpu d q hd
      rcases hcalm q hqp with heq | ⟨hne, -, -⟩
      · rw [heq, hq]
      · exact absurd hq hne
  · intro d e q hd he
    rw [hcpu] at hd he
    split at hd
    next => cases hd
    next =>
      split at he
      next => cases he
      next => exact hk.cpu_injective d e q hd he
  · intro q hq
    have hqp : q ≠ p := fun heq => hp (heq ▸ hq)
    rcases hcalm q hqp with heq | ⟨-, -, hne⟩
    · obtain ⟨d, hd⟩ := hk.cpu_of_running q (heq ▸ hq)
      have hdc : d ≠ c := by
        intro heq
        rw [heq, hc] at hd
        exact hqp (Option.some.inj hd).symm
      exact ⟨d, by rw [hcpu, if_neg hdc, hd]⟩
    · exact absurd hq hne
  · intro q np stage hfork
    rw [hforking] at hfork
    have hembryo := hk.embryo_of_forking q np stage hfork
    have hnp : np ≠ p := by
      intro heq
      rw [heq, hrunning] at hembryo
      cases hembryo
    rcases hcalm np hnp with heq | ⟨-, hne, -⟩
    · rw [heq, hembryo]
    · exact absurd hembryo hne
  · intro q r np stage stage'
    rw [hforking, hforking]
    exact hk.forking_injective q r np stage stage'

theorem sched {c : Fin ncpu} {p : Fin nproc} (hc : k.cpu c = some p) {state : ProcState}
    (hstate : state ≠ .running) (chan : Chan nproc) (context : Context) :
    (k.sched c p state chan context).Consistent := by
  apply hk.park hc
  · simp [State.sched]
  · intro q
    simp only [State.sched, setCpu_proc, setProc_proc]
    split
    next heq => rw [heq]
    next => rfl
  · simpa [State.sched] using hstate
  · intro q hq
    simp [CalmAt, State.sched, hq]

/-- A free CPU takes a RUNNABLE slot. -/
theorem dispatch {c : Fin ncpu} {p : Fin nproc} (hc : k.cpu c = none)
    (hp : (k.proc p).state = .runnable) : (k.dispatch c p).Consistent := by
  obtain ⟨hcpu, hinj, hrunning, hembryo, hforking⟩ := hk
  refine ⟨?_, ?_, ?_, ?_, ?_⟩ <;> simp only [State.dispatch, setCpu_proc, setCpu_cpu,
    setProc_proc, setProc_cpu]
  · grind
  · grind
  · intro q hq
    by_cases heq : q = p
    · exact ⟨c, by simp [heq]⟩
    · rw [if_neg heq] at hq
      obtain ⟨d, hd⟩ := hrunning q hq
      have hdc : d ≠ c := by
        intro heq
        rw [heq, hc] at hd
        cases hd
      exact ⟨d, by rw [if_neg hdc, hd]⟩
  · grind
  · grind

/-- A process enters `fork` with a free slot. -/
theorem forkAlloc {c : Fin ncpu} {p np : Fin nproc} (hc : k.cpu c = some p)
    (hnp : (k.proc np).state = .unused) :
    ((k.allocSlot np).setForking p (some (np, .allocated))).Consistent := by
  have hp := hk.running_of_cpu c p hc
  have hfree : ∀ q stage, (k.proc q).forking ≠ some (np, stage) := by
    intro q stage hfork
    have hembryo := hk.embryo_of_forking q np stage hfork
    rw [hnp] at hembryo
    cases hembryo
  obtain ⟨hcpu, hinj, hrunning, hembryo, hforking⟩ := hk
  constructor <;> simp only [allocSlot, setForking, setProc_proc, setProc_cpu] <;> grind

/-- A `fork` goes on to its next stage; the state of its slot is the same. -/
theorem forkAdvance {p np : Fin nproc} {stage : ForkStage} (stage' : ForkStage)
    (hfork : (k.proc p).forking = some (np, stage)) (hcpu : k'.cpu = k.cpu)
    (hstate : ∀ q, (k'.proc q).state = (k.proc q).state)
    (hforking : ∀ q, (k'.proc q).forking =
      if q = p then some (np, stage') else (k.proc q).forking) : k'.Consistent := by
  obtain ⟨hrunning, hinj, honcpu, hembryo, hunique⟩ := hk
  constructor <;> simp only [hcpu, hstate, hforking] <;> grind

/-- A `fork` ends, with its slot in a state other than RUNNING. -/
theorem forkEnd {p np : Fin nproc} {stage : ForkStage} (state : ProcState)
    (hfork : (k.proc p).forking = some (np, stage)) (hrunning : state ≠ .running)
    (hcpu : k'.cpu = k.cpu)
    (hstate : ∀ q, (k'.proc q).state = if q = np then state else (k.proc q).state)
    (hforking : ∀ q, (k'.proc q).forking = if q = p then none else (k.proc q).forking) :
    k'.Consistent := by
  obtain ⟨hrun, hinj, honcpu, hembryo, hunique⟩ := hk
  constructor <;> simp only [hcpu, hstate, hforking] <;> grind

end Consistent

end State

open State

variable {k k' : State nproc ncpu} {a : Action nproc ncpu} {events : List (Event nproc)}

theorem LocalEffect.consistent (h : LocalEffect k a k' events) (hk : k.Consistent) :
    k'.Consistent := by
  cases h with
  | none hfailed => exact hk
  | waitSleep hc hparent hzombie => exact hk.sched hc ProcState.noConfusion _ _
  | sleep hc => exact hk.sched hc ProcState.noConfusion _ _
  | yield hc => exact hk.sched hc ProcState.noConfusion _ _
  | dispatch hc hp => exact hk.dispatch hc hp
  | clearChan hc =>
      refine hk.calm rfl ?_ ?_ <;> simp only [CalmAt, State.clearChan, setProc_proc] <;> grind
  | wakeup => refine hk.calm rfl ?_ ?_ <;> simp only [CalmAt, wakeup1] <;> grind
  | kill hpid =>
      refine hk.calm rfl ?_ ?_ <;> simp only [CalmAt, markKilled, setProc_proc] <;> grind
  | settickets hc => refine hk.calm rfl ?_ ?_ <;> simp only [CalmAt, setProc_proc] <;> grind

theorem Effect.consistent (h : Effect k a k' events) (hk : k.Consistent) : k'.Consistent := by
  cases h with
  | stay h => exact h.consistent hk
  | userinit hinit hi =>
      refine hk.calm rfl ?_ ?_ <;>
        simp only [CalmAt, startInit, allocSlot, setProc_proc] <;> grind
  | forkAlloc hc hidle hnp => exact hk.forkAlloc hc hnp
  | forkKstack hc hfork =>
      have hne := hk.ne_of_forking hc hfork
      refine hk.forkAdvance .kstack hfork rfl ?_ ?_ <;>
        simp only [setForking, setProc_proc] <;> grind
  | forkCopy hc hfork =>
      have hne := hk.ne_of_forking hc hfork
      refine hk.forkAdvance .copied hfork rfl ?_ ?_ <;>
        simp only [setForking, setProc_proc] <;> grind
  | forkAbort hc hfork hstage ha =>
      have hne := hk.ne_of_forking hc hfork
      refine hk.forkEnd .unused hfork ProcState.noConfusion rfl ?_ ?_ <;>
        simp only [abortFork, setForking, setProc_proc] <;> grind
  | forkFinish hc hfork =>
      have hne := hk.ne_of_forking hc hfork
      refine hk.forkEnd .runnable hfork ProcState.noConfusion rfl ?_ ?_ <;>
        simp only [setForking, setProc_proc] <;> grind
  | exit hc hidle hinit hwakes =>
      have hsleeping := hwakes.sleeping
      apply hk.park hc
      · simp [exitWith, Function.update_apply]
      · simp [exitWith]
      · simp [exitWith]
      · simp only [CalmAt, exitWith]
        grind
  | reap hc hparent hi ha =>
      refine hk.calm rfl ?_ ?_ <;> simp only [CalmAt, State.reap, setProc_proc] <;> grind

theorem consistent_of_reach {ok : State nproc ncpu → Action nproc ncpu → Prop}
    {history : List (Event nproc)} (h : Reach State.step ok (.boot nproc ncpu) history k) :
    k.Consistent :=
  reach_invariant (fun _ k => k.Consistent) boot_consistent
    (fun _ _ _ _ _ hk _ heffect => heffect.consistent hk) h

/-! ## Effects that keep the family -/

/-- A process that has started and not exited. -/
def ProcState.Active (s : ProcState) : Prop := s = .sleeping ∨ s = .runnable ∨ s = .running

/-- Everything that `fork`, `exit` and `wait` go by is the same. -/
structure State.SameKin (k k' : State nproc ncpu) : Prop where
  initproc : k'.initproc = k.initproc
  nextpid : k'.nextpid = k.nextpid
  pid : ∀ q, (k'.proc q).pid = (k.proc q).pid
  parent : ∀ q, (k'.proc q).parent = (k.proc q).parent
  forking : ∀ q, (k'.proc q).forking = (k.proc q).forking
  state : ∀ q, (k'.proc q).state = (k.proc q).state ∨
    ((k.proc q).state.Active ∧ (k'.proc q).state.Active)

/-- A write to the slot of an active process that leaves it active. -/
theorem sameKin_setProc {p : Fin nproc} {slot : Proc nproc} (hpid : slot.pid = (k.proc p).pid)
    (hparent : slot.parent = (k.proc p).parent) (hforking : slot.forking = (k.proc p).forking)
    (hstate : slot.state = (k.proc p).state ∨ ((k.proc p).state.Active ∧ slot.state.Active)) :
    k.SameKin (k.setProc p slot) := by
  refine ⟨rfl, rfl, ?_, ?_, ?_, ?_⟩ <;> intro q <;> rw [setProc_proc] <;> split
  next heq => rw [heq, hpid]
  next => rfl
  next heq => rw [heq, hparent]
  next => rfl
  next heq => rw [heq, hforking]
  next => rfl
  next heq => rw [heq]; exact hstate
  next => exact .inl rfl

theorem State.SameKin.setCpu (h : k.SameKin k') (c : Fin ncpu) (proc : Option (Fin nproc)) :
    k.SameKin (k'.setCpu c proc) :=
  ⟨h.initproc, h.nextpid, h.pid, h.parent, h.forking, h.state⟩

theorem sameKin_sched {c : Fin ncpu} {p : Fin nproc} {state : ProcState} {chan : Chan nproc}
    {context : Context} (hp : (k.proc p).state.Active) (hstate : state.Active) :
    k.SameKin (k.sched c p state chan context) := by
  apply SameKin.setCpu
  exact sameKin_setProc rfl rfl rfl (.inr ⟨hp, hstate⟩)

theorem LocalEffect.sameKin (h : LocalEffect k a k' events) (hk : k.Consistent) :
    k.SameKin k' := by
  have hactive : ∀ c p, k.cpu c = some p → (k.proc p).state.Active := by
    intro c p hc
    exact .inr (.inr (hk.running_of_cpu c p hc))
  cases h with
  | none hfailed => exact ⟨rfl, rfl, fun _ => rfl, fun _ => rfl, fun _ => rfl, fun _ => .inl rfl⟩
  | waitSleep hc hparent hzombie => exact sameKin_sched (hactive _ _ hc) (.inl rfl)
  | sleep hc => exact sameKin_sched (hactive _ _ hc) (.inl rfl)
  | yield hc => exact sameKin_sched (hactive _ _ hc) (.inr (.inl rfl))
  | dispatch hc hp =>
      apply SameKin.setCpu
      exact sameKin_setProc rfl rfl rfl (.inr ⟨.inr (.inl hp), .inr (.inr rfl)⟩)
  | clearChan hc => exact sameKin_setProc rfl rfl rfl (.inl rfl)
  | wakeup =>
      refine ⟨rfl, rfl, ?_, ?_, ?_, ?_⟩ <;> simp only [wakeup1, ProcState.Active] <;> grind
  | kill hpid =>
      refine sameKin_setProc rfl rfl rfl ?_
      dsimp only
      split
      next hsleeping => exact .inr ⟨.inl hsleeping, .inr (.inl rfl)⟩
      next => exact .inl rfl
  | settickets hc => exact sameKin_setProc rfl rfl rfl (.inl rfl)

/-! ## ZOMBIE slots -/

/-- An effect leaves a ZOMBIE slot as it is, unless `wait` returns its pid. -/
theorem Effect.zombie (h : Effect k a k' events) (hk : k.Consistent) {i : Fin nproc}
    (hi : (k.proc i).state = .zombie) :
    ((k'.proc i).state = .zombie ∧ (k'.proc i).pid = (k.proc i).pid) ∨
      ∃ c caller, (a = .wait c ∨ ∃ winner, a = .scheduler c winner) ∧
        .wait caller (k.proc i).pid ∈ events := by
  have hcpu : ∀ c p, k.cpu c = some p → i ≠ p := by
    intro c p hc heq
    have hp := hk.running_of_cpu c p hc
    rw [← heq, hi] at hp
    cases hp
  have hembryo : ∀ p np stage, (k.proc p).forking = some (np, stage) → i ≠ np := by
    intro p np stage hfork heq
    have hnp := hk.embryo_of_forking p np stage hfork
    rw [← heq, hi] at hnp
    cases hnp
  cases h with
  | stay h =>
      have hkin := h.sameKin hk
      rcases hkin.state i with heq | ⟨hactive, -⟩
      · exact .inl ⟨heq.trans hi, hkin.pid i⟩
      · simp [hi, ProcState.Active] at hactive
  | userinit hinit hj =>
      left
      simp only [startInit, allocSlot, setProc_proc]
      grind
  | forkAlloc hc _ hnp =>
      left
      simp only [allocSlot, setForking, setProc_proc]
      grind
  | forkKstack hc hfork =>
      left
      simp [setForking, hcpu _ _ hc, hembryo _ _ _ hfork, hi]
  | forkCopy hc hfork =>
      left
      simp [setForking, hcpu _ _ hc, hembryo _ _ _ hfork, hi]
  | forkAbort hc hfork =>
      left
      simp [abortFork, setForking, hcpu _ _ hc, hembryo _ _ _ hfork, hi]
  | forkFinish hc hfork =>
      left
      simp [setForking, hcpu _ _ hc, hembryo _ _ _ hfork, hi]
  | exit hc hidle hinit hwakes =>
      have hsleeping := hwakes.sleeping i
      left
      simp only [exitWith]
      grind
  | @reap a c p j hc hparent hj ha =>
      by_cases hij : i = j
      · exact .inr ⟨c, (k.proc p).pid, ha, by simp [hij]⟩
      · left
        simp [State.reap, hij, hi]

theorem Effects.zombie (h : Effects a k k' events) (hk : k.Consistent) {i : Fin nproc}
    (hi : (k.proc i).state = .zombie) :
    (k'.proc i).state = .zombie ∨
      ∃ c caller, (a = .wait c ∨ ∃ winner, a = .scheduler c winner) ∧
        .wait caller (k.proc i).pid ∈ events := by
  induction h with
  | one h => exact (h.zombie hk hi).imp_left And.left
  | cons ha h _ ih =>
      rcases h.zombie hk hi with ⟨hstate, hpid⟩ | ⟨c, caller, hact, hmem⟩
      · apply (ih (h.consistent hk) hstate).imp_right
        rintro ⟨c, caller, hact, hmem⟩
        exact ⟨c, caller, hact, List.mem_append_right _ (hpid ▸ hmem)⟩
      · exact .inr ⟨c, caller, hact, List.mem_append_left _ hmem⟩

theorem Effect.switch (h : Effect k a k' events) {i : Fin nproc}
    (hswitch : .switch i ∈ events) : (k.proc i).state = .runnable := by
  cases h with
  | stay h =>
      cases h with
      | none hfailed => exact (hfailed _ hswitch).elim
      | dispatch hc hp =>
          cases List.mem_singleton.mp hswitch
          exact hp
      | _ => simp at hswitch
  | _ => simp at hswitch

theorem waitTurn_no_switch (c : Fin ncpu) (p i : Fin nproc) :
    .switch i ∉ (k.waitTurn c p).2 := by
  unfold waitTurn
  split
  next => simp
  next => split <;> simp

theorem resume_no_switch (c : Fin ncpu) (p i : Fin nproc) : .switch i ∉ (k.resume c p).2 := by
  unfold resume
  split
  · simp
  · simp
  · simp
  · exact waitTurn_no_switch c p i

/-- The scheduler switches to RUNNABLE slots only. -/
theorem runnable_of_switch {i : Fin nproc} (h : k.step a = some (k', events))
    (hswitch : .switch i ∈ events) : (k.proc i).state = .runnable := by
  cases a with
  | scheduler c winner =>
      simp only [step] at h
      split at h
      next hc =>
        split at h
        next =>
          cases h
          simp at hswitch
        next p hp =>
          cases h
          rcases List.mem_cons.mp hswitch with heq | hmem
          · cases heq
            exact pick_runnable hp
          · exact absurd hmem (resume_no_switch c p i)
      next => cases h
  | _ =>
      -- the other actions have one effect
      cases step_effects h with
      | one h => exact h.switch hswitch
      | cons ha _ _ => cases ha

/-- In every reachable state the busy CPUs and the RUNNING slots are in
bijection, and from it no step selects a ZOMBIE, or takes a slot out of ZOMBIE
other than by a `wait` that returns its pid. -/
theorem running_iff_on_cpu {history : List (Event nproc)}
    (h : Reach State.step anyStep (.boot nproc ncpu) history k) :
    (∀ c p, k.cpu c = some p → (k.proc p).state = .running) ∧
    (∀ c d p, k.cpu c = some p → k.cpu d = some p → c = d) ∧
    (∀ p, (k.proc p).state = .running → ∃ c, k.cpu c = some p) ∧
    ∀ a k' events, k.step a = some (k', events) → ∀ i, (k.proc i).state = .zombie →
      .switch i ∉ events ∧
      ((k'.proc i).state ≠ .zombie →
        ∃ c caller, (a = .wait c ∨ ∃ winner, a = .scheduler c winner) ∧
          .wait caller (k.proc i).pid ∈ events) := by
  have hk := consistent_of_reach h
  refine ⟨hk.running_of_cpu, hk.cpu_injective, hk.cpu_of_running, ?_⟩
  intro a k' events hstep i hi
  refine ⟨?_, ?_⟩
  · intro hswitch
    have hrunnable := runnable_of_switch hstep hswitch
    rw [hi] at hrunnable
    cases hrunnable
  · intro hleft
    exact ((step_effects hstep).zombie hk hi).resolve_left hleft

/-- `initproc` forks on one CPU, and its child runs and exits on another. -/
def forkExit (c d : Fin ncpu) : List (Action nproc ncpu) :=
  [.userinit, .scheduler c 0, .forkAlloc c, .forkKalloc c true, .forkCopy c true, .forkFinish c,
    .scheduler d 0, .exit d]

theorem forkExit_isSome : (run State.step (.boot 2 2) (forkExit 0 1)).isSome := by decide +kernel

theorem running_iff_on_cpu_forkExit : ∃ history k,
    Reach State.step anyStep (.boot 2 2) history k ∧ (k.proc 1).state = .zombie ∧
      k.cpu 0 = some 0 ∧ (k.proc 0).state = .running := by
  have hreach := Reach.of_isSome (forkExit 0 1) (admitted_anyStep _ _) forkExit_isSome
  refine ⟨_, _, hreach, by decide +kernel, by decide +kernel, ?_⟩
  exact (running_iff_on_cpu hreach).1 0 0 (by decide +kernel)

end OsCourse.Kernel
