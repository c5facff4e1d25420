import OsCourse.Kernel.Cpus

/-! # Parents and waiting

A parent pointer names a slot that can be used again, so it has to be cleared
or passed on before its target is freed. `wait` scans for children and goes to
sleep in one critical section; no later step takes its last child away or
leaves a ZOMBIE child without waking it up.
-/

namespace OsCourse.Kernel

open Transition State

variable {nproc ncpu : Nat}

namespace State

/-- Parent pointers lead to other, active processes; `initproc` and free slots
have none, and the slot of a `fork` gets its own when the copy is done. -/
structure Family (k : State nproc ncpu) : Prop where
  parent_active : ∀ i q, (k.proc i).parent = some q → (k.proc q).state.Active
  parent_ne : ∀ i, (k.proc i).parent ≠ some i
  init_active : ∀ q, k.initproc = some q → (k.proc q).state.Active
  init_parent : ∀ q, k.initproc = some q → (k.proc q).parent = none
  parent_unused : ∀ i, (k.proc i).state = .unused → (k.proc i).parent = none
  parent_forking : ∀ p np stage, (k.proc p).forking = some (np, stage) →
    (k.proc np).parent = if stage = .copied then some p else none

/-- There is something to wait for: a child, and no ZOMBIE among the children. -/
def HasWork (k : State nproc ncpu) (p : Fin nproc) : Prop :=
  (∃ i, (k.proc i).parent = some p) ∧ ∀ i, (k.proc i).parent = some p → (k.proc i).state ≠ .zombie

/-- `p` is asleep in `wait`. -/
def Waits (k : State nproc ncpu) (p : Fin nproc) : Prop :=
  (k.proc p).state = .sleeping ∧ (k.proc p).chan = .proc p

theorem boot_family : (boot nproc ncpu).Family := by
  constructor <;> simp [boot, Proc.zero]

theorem boot_waits (p : Fin nproc) : ¬ (boot nproc ncpu).Waits p := by
  simp [boot, Proc.zero, Waits]

end State

variable {k k' : State nproc ncpu} {a : Action nproc ncpu} {events : List (Event nproc)}

theorem State.Family.sameKin (hfam : k.Family) (hkin : k.SameKin k') : k'.Family := by
  have hactive : ∀ q, (k.proc q).state.Active → (k'.proc q).state.Active := by
    intro q hq
    rcases hkin.state q with heq | ⟨-, hq'⟩
    · exact heq ▸ hq
    · exact hq'
  refine ⟨?_, ?_, ?_, ?_, ?_, ?_⟩
  · intro i q hi
    rw [hkin.parent] at hi
    exact hactive q (hfam.parent_active i q hi)
  · intro i
    rw [hkin.parent]
    exact hfam.parent_ne i
  · intro q hq
    rw [hkin.initproc] at hq
    exact hactive q (hfam.init_active q hq)
  · intro q hq
    rw [hkin.initproc] at hq
    rw [hkin.parent, hfam.init_parent q hq]
  · intro i hi
    rw [hkin.parent]
    rcases hkin.state i with heq | ⟨-, hactive'⟩
    · exact hfam.parent_unused i (heq ▸ hi)
    · rw [hi] at hactive'
      simp [ProcState.Active] at hactive'
  · intro p np stage hfork
    rw [hkin.forking] at hfork
    rw [hkin.parent]
    exact hfam.parent_forking p np stage hfork

/-! ## Steps of `fork` -/

/-- What a step of the `fork` of `p` may write to its new slot `np`, and the stage
it may lead to. -/
structure ForkSlot (p np : Fin nproc) (old slot : Proc nproc)
    (stage : Option (Fin nproc × ForkStage)) : Prop where
  forking : slot.forking = old.forking
  state : slot.state = .unused ∨ slot.state = .embryo ∨ slot.state = .runnable
  unused : slot.state = .unused → slot.parent = none
  kept : ∀ q, old.parent = some q → slot.parent = some q
  parent : ∀ q, slot.parent = some q → q = p
  stage : ∀ np' s, stage = some (np', s) →
    np' = np ∧ slot.parent = if s = .copied then some p else none

/-- A step of the `fork` of `p`: only the new slot and `p` itself are written. -/
structure ForkStep (k k' : State nproc ncpu) (p np : Fin nproc) (slot : Proc nproc)
    (stage : Option (Fin nproc × ForkStage)) : Prop where
  slot_right : ForkSlot p np (k.proc np) slot stage
  running : (k.proc p).state = .running
  free : (k.proc np).state = .unused ∨ (k.proc np).state = .embryo
  mine : ∀ q s, (k.proc q).forking = some (np, s) → q = p
  initproc : k'.initproc = k.initproc
  proc : k'.proc = ((k.setProc np slot).setForking p stage).proc

namespace ForkStep

variable {p np : Fin nproc} {slot : Proc nproc} {stage : Option (Fin nproc × ForkStage)}

/-- A step of a `fork` that has its slot. -/
theorem of_forking (hk : k.Consistent) {c : Fin ncpu} (hc : k.cpu c = some p) {s : ForkStage}
    (hfork : (k.proc p).forking = some (np, s)) (hslot : ForkSlot p np (k.proc np) slot stage) :
    ForkStep k ((k.setProc np slot).setForking p stage) p np slot stage where
  slot_right := hslot
  running := hk.running_of_cpu c p hc
  free := .inr (hk.embryo_of_forking p np s hfork)
  mine q s' hq := hk.forking_injective q p np s' s hq hfork
  initproc := rfl
  proc := rfl

variable (h : ForkStep k k' p np slot stage)
include h

theorem ne : np ≠ p := by
  intro heq
  have hfree := h.free
  rw [heq, h.running] at hfree
  simp at hfree

theorem slot_eq : k'.proc np = slot := by
  rw [h.proc, setForking, setProc_proc, if_neg h.ne, setProc_proc, if_pos rfl]

theorem caller_eq : k'.proc p = { k.proc p with forking := stage } := by
  rw [h.proc, setForking, setProc_proc, if_pos rfl, setProc_proc, if_neg h.ne.symm]

theorem other_eq {q : Fin nproc} (hqp : q ≠ p) (hqnp : q ≠ np) : k'.proc q = k.proc q := by
  rw [h.proc, setForking, setProc_proc, if_neg hqp, setProc_proc, if_neg hqnp]

theorem state_eq {q : Fin nproc} (hq : q ≠ np) : (k'.proc q).state = (k.proc q).state := by
  by_cases hqp : q = p
  · rw [hqp, h.caller_eq]
  · rw [h.other_eq hqp hq]

theorem chan_eq {q : Fin nproc} (hq : q ≠ np) : (k'.proc q).chan = (k.proc q).chan := by
  by_cases hqp : q = p
  · rw [hqp, h.caller_eq]
  · rw [h.other_eq hqp hq]

theorem parent_eq {q : Fin nproc} (hq : q ≠ np) : (k'.proc q).parent = (k.proc q).parent := by
  by_cases hqp : q = p
  · rw [hqp, h.caller_eq]
  · rw [h.other_eq hqp hq]

theorem forking_eq {q : Fin nproc} (hq : q ≠ p) : (k'.proc q).forking = (k.proc q).forking := by
  by_cases hqnp : q = np
  · rw [hqnp, h.slot_eq, h.slot_right.forking]
  · rw [h.other_eq hq hqnp]

theorem ne_of_active {q : Fin nproc} (hq : (k.proc q).state.Active) : q ≠ np := by
  rintro rfl
  rcases h.free with hfree | hfree <;> simp [hfree, ProcState.Active] at hq

/-- No active process is written. -/
theorem active {q : Fin nproc} (hq : (k.proc q).state.Active) : (k'.proc q).state.Active := by
  rw [h.state_eq (h.ne_of_active hq)]
  exact hq

theorem family (hfam : k.Family) : k'.Family := by
  refine ⟨?_, ?_, ?_, ?_, ?_, ?_⟩
  · intro i q hi
    by_cases hinp : i = np
    · rw [hinp, h.slot_eq] at hi
      rw [h.slot_right.parent q hi, h.caller_eq]
      exact .inr (.inr h.running)
    · rw [h.parent_eq hinp] at hi
      exact h.active (hfam.parent_active i q hi)
  · intro i hi
    by_cases hinp : i = np
    · subst hinp
      rw [h.slot_eq] at hi
      exact h.ne (h.slot_right.parent i hi)
    · rw [h.parent_eq hinp] at hi
      exact hfam.parent_ne i hi
  · intro q hq
    rw [h.initproc] at hq
    exact h.active (hfam.init_active q hq)
  · intro q hq
    rw [h.initproc] at hq
    rw [h.parent_eq (h.ne_of_active (hfam.init_active q hq))]
    exact hfam.init_parent q hq
  · intro i hi
    by_cases hinp : i = np
    · subst hinp
      rw [h.slot_eq] at hi ⊢
      exact h.slot_right.unused hi
    · rw [h.state_eq hinp] at hi
      rw [h.parent_eq hinp]
      exact hfam.parent_unused i hi
  · intro q np' s hq
    by_cases hqp : q = p
    · subst hqp
      rw [h.caller_eq] at hq
      obtain ⟨rfl, hparent⟩ := h.slot_right.stage np' s hq
      rw [h.slot_eq, hparent]
    · rw [h.forking_eq hqp] at hq
      have hne : np' ≠ np := by
        rintro rfl
        exact hqp (h.mine q s hq)
      rw [h.parent_eq hne]
      exact hfam.parent_forking q np' s hq

end ForkStep

/-- Seen from parents and waiting, there are five kinds of effects. -/
inductive KinEffect (k : State nproc ncpu) (a : Action nproc ncpu) :
    State nproc ncpu → List (Event nproc) → Prop
  | stay {k' : State nproc ncpu} {events : List (Event nproc)} (h : LocalEffect k a k' events) :
      KinEffect k a k' events
  | userinit {i : Fin nproc} {events : List (Event nproc)} (hinit : k.initproc = none)
      (hi : (k.proc i).state = .unused) : KinEffect k a (k.startInit i) events
  | fork {k' : State nproc ncpu} {events : List (Event nproc)} {p np : Fin nproc}
      {slot : Proc nproc} {stage : Option (Fin nproc × ForkStage)}
      (h : ForkStep k k' p np slot stage) : KinEffect k a k' events
  | exit {c : Fin ncpu} {p : Fin nproc} {woken : Fin nproc → Bool} {events : List (Event nproc)}
      (hp : (k.proc p).state = .running) (hidle : (k.proc p).forking = none)
      (hinit : k.initproc ≠ some p) (hwakes : k.Wakes p woken) :
      KinEffect k a (k.exitWith c p woken) events
  | reap {p i : Fin nproc} {events : List (Event nproc)} (hp : (k.proc p).state = .running)
      (hparent : (k.proc i).parent = some p) (hi : (k.proc i).state = .zombie) :
      KinEffect k a (k.reap i) events

theorem Effect.kinEffect (h : Effect k a k' events) (hk : k.Consistent) (hfam : k.Family) :
    KinEffect k a k' events := by
  cases h with
  | stay h => exact .stay h
  | userinit hinit hi => exact .userinit hinit hi
  | @forkAlloc c p np hc hidle hnp =>
      have hparent := hfam.parent_unused np hnp
      have hmine : ∀ q s, (k.proc q).forking = some (np, s) → q = p := by
        intro q s hq
        have hembryo := hk.embryo_of_forking q np s hq
        rw [hnp] at hembryo
        cases hembryo
      refine .fork ⟨?_, hk.running_of_cpu c p hc, .inl hnp, hmine, rfl, rfl⟩
      exact ⟨rfl, by simp, by simp, by simp, by simp [hparent], by simp [hparent]⟩
  | @forkKstack c p np hc hfork =>
      have hembryo := hk.embryo_of_forking p np _ hfork
      have hparent := hfam.parent_forking p np _ hfork
      apply KinEffect.fork (ForkStep.of_forking hk hc hfork _)
      exact ⟨rfl, by simp [hembryo], by simp [hembryo], by simp, by simp [hparent],
        by simp [hparent]⟩
  | @forkCopy c p np hc hfork =>
      have hembryo := hk.embryo_of_forking p np _ hfork
      have hparent := hfam.parent_forking p np _ hfork
      apply KinEffect.fork (ForkStep.of_forking hk hc hfork _)
      exact ⟨rfl, by simp [hembryo], by simp [hembryo], by simp [hparent], by simp, by simp⟩
  | @forkAbort a c p np s hc hfork hstage ha =>
      have hparent := hfam.parent_forking p np s hfork
      rw [if_neg hstage] at hparent
      apply KinEffect.fork (ForkStep.of_forking hk hc hfork _)
      exact ⟨rfl, by simp, by simp [hparent], by simp, by simp [hparent], by simp⟩
  | @forkFinish c p np hc hfork =>
      have hparent := hfam.parent_forking p np _ hfork
      apply KinEffect.fork (ForkStep.of_forking hk hc hfork _)
      exact ⟨rfl, by simp, by simp, by simp, by simp [hparent], by simp⟩
  | exit hc hidle hinit hwakes => exact .exit (hk.running_of_cpu _ _ hc) hidle hinit hwakes
  | reap hc hparent hi ha => exact .reap (hk.running_of_cpu _ _ hc) hparent hi

theorem KinEffect.family (h : KinEffect k a k' events) (hk : k.Consistent) (hfam : k.Family) :
    k'.Family := by
  have hembryo := hk.embryo_of_forking
  have ⟨hparent, hself, hinit, horphan, hunused, hforking⟩ := hfam
  unfold ProcState.Active at hparent hinit
  cases h with
  | stay h => exact hfam.sameKin (h.sameKin hk)
  | fork h => exact h.family hfam
  | userinit hnone hi =>
      constructor <;> simp only [ProcState.Active, startInit, allocSlot, setProc_proc] <;> grind
  | exit hp hidle hnotinit hwakes =>
      have hsleeping := hwakes.sleeping
      constructor <;> simp only [ProcState.Active, exitWith] <;> grind
  | reap hp hchild hi =>
      constructor <;> simp only [ProcState.Active, State.reap, setProc_proc,
        setProc_initproc] <;> grind

theorem Effect.family (h : Effect k a k' events) (hk : k.Consistent) (hfam : k.Family) :
    k'.Family :=
  (h.kinEffect hk hfam).family hk hfam

/-! ## No lost wakeup -/

/-- The assumption on callers of `sleep`: only `wait` sleeps on the address of a
`struct proc`. -/
def sleepsOffTable (_ : State nproc ncpu) (a : Action nproc ncpu) : Prop :=
  ∀ c q, a ≠ .sleep c (.proc q)

instance (k : State nproc ncpu) (a : Action nproc ncpu) : Decidable (sleepsOffTable k a) :=
  inferInstanceAs (Decidable (∀ c q, a ≠ .sleep c (.proc q)))

/-- Children do not get lost, and ZOMBIE children do not come up. -/
theorem State.HasWork.mono {p : Fin nproc} (hwork : k.HasWork p)
    (hparent : ∀ i, (k.proc i).parent = some p → (k'.proc i).parent = some p)
    (hzombie : ∀ i, (k'.proc i).parent = some p → (k'.proc i).state = .zombie →
      (k.proc i).parent = some p ∧ (k.proc i).state = .zombie) : k'.HasWork p := by
  obtain ⟨⟨i, hi⟩, hnone⟩ := hwork
  refine ⟨⟨i, hparent i hi⟩, ?_⟩
  intro j hj hjz
  obtain ⟨hj', hjz'⟩ := hzombie j hj hjz
  exact hnone j hj' hjz'

theorem State.HasWork.sameKin {p : Fin nproc} (hwork : k.HasWork p) (hkin : k.SameKin k') :
    k'.HasWork p := by
  apply hwork.mono
  · intro i hi
    rw [hkin.parent, hi]
  · intro i hi hiz
    refine ⟨hkin.parent i ▸ hi, ?_⟩
    rcases hkin.state i with heq | ⟨-, hactive⟩
    · exact heq ▸ hiz
    · rw [hiz] at hactive
      simp [ProcState.Active] at hactive

/-- A write to a slot makes none but its own process wait. -/
theorem State.Waits.of_setProc {p q : Fin nproc} {slot : Proc nproc}
    (h : (k.setProc q slot).Waits p)
    (hslot : slot.state = .sleeping → slot.chan = .proc q → k.Waits q) : k.Waits p := by
  obtain ⟨hstate, hchan⟩ := h
  rw [setProc_proc] at hstate hchan
  by_cases hpq : p = q
  · rw [if_pos hpq] at hstate hchan
    rw [hpq] at hchan ⊢
    exact hslot hstate hchan
  · rw [if_neg hpq] at hstate hchan
    exact ⟨hstate, hchan⟩

theorem State.Waits.of_wakeup1 {p : Fin nproc} {chan : Chan nproc}
    (h : { k with proc := wakeup1 k.proc chan }.Waits p) : k.Waits p := by
  obtain ⟨hstate, hchan⟩ := h
  simp only [wakeup1] at hstate hchan
  split at hstate
  next => cases hstate
  next hother =>
    rw [if_neg hother] at hchan
    exact ⟨hstate, hchan⟩

/-- Only `wait` itself makes a process wait. -/
theorem LocalEffect.waits (h : LocalEffect k a k' events)
    (hok : Admits sleepsOffTable k a) {p : Fin nproc} (hp : k'.Waits p) :
    k.Waits p ∨ k.HasWork p := by
  cases h with
  | none => exact .inl hp
  | @waitSleep a c q i hc hparent hzombie =>
      by_cases hpq : p = q
      · exact .inr (hpq ▸ ⟨⟨i, hparent⟩, hzombie⟩)
      · obtain ⟨hstate, hchan⟩ := hp
        simp only [State.sched, setCpu_proc, setProc_proc, if_neg hpq] at hstate hchan
        exact .inl ⟨hstate, hchan⟩
  | @sleep c q chan hc =>
      left
      apply State.Waits.of_setProc hp
      intro _ hchan
      rcases hok with ⟨_, _, ha⟩ | hok
      · cases ha
      · exact absurd (congrArg (Action.sleep c) hchan) (hok c q)
  | yield hc => exact .inl (State.Waits.of_setProc hp fun hstate => by cases hstate)
  | dispatch hc hp' => exact .inl (State.Waits.of_setProc hp fun hstate => by cases hstate)
  | clearChan hc => exact .inl (State.Waits.of_setProc hp fun _ hchan => by cases hchan)
  | wakeup => exact .inl (State.Waits.of_wakeup1 hp)
  | kill hpid =>
      left
      apply State.Waits.of_setProc hp
      intro hstate _
      -- a sleeping process would have become RUNNABLE
      dsimp only at hstate
      split at hstate
      next => cases hstate
      next hawake => exact absurd hstate hawake
  | settickets hc => exact .inl (State.Waits.of_setProc hp fun hstate hchan => ⟨hstate, hchan⟩)

/-- The exit of a process wakes up whoever would wait for the ZOMBIE it becomes
or for those it passes on. -/
theorem exit_hasWork {c : Fin ncpu} {p q : Fin nproc} {woken : Fin nproc → Bool}
    (hself : (k.proc p).parent ≠ some p) (hwakes : k.Wakes p woken)
    (hwork : ∀ q, k.Waits q → k.HasWork q) (hq : (k.exitWith c p woken).Waits q) :
    (k.exitWith c p woken).HasWork q := by
  obtain ⟨hstate, hchan⟩ := hq
  simp only [exitWith] at hstate hchan
  have hqp : q ≠ p := by
    intro heq
    simp [heq] at hstate
  rw [if_neg hqp] at hstate
  split at hstate
  next => cases hstate
  next hasleep =>
    apply (hwork q ⟨hstate, hchan⟩).mono
    · intro i hi
      simp only [exitWith]
      rw [if_neg, hi]
      rw [hi]
      exact fun heq => hqp (Option.some.inj heq)
    · intro i hi hiz
      simp only [exitWith] at hi hiz
      by_cases hip : i = p
      · -- `q` is the parent of `p`, and was woken up first
        rw [hip, if_neg hself] at hi
        exact absurd (hwakes.parent q hstate (by rw [hchan, hi]; rfl)) hasleep
      · have hzombie : (k.proc i).state = .zombie := by
          rw [if_neg hip] at hiz
          split at hiz
          next => cases hiz
          next => exact hiz
        split at hi
        next hchild =>
          -- `q` is `initproc` and inherits the ZOMBIE
          exact absurd (hwakes.init q i hstate (by rw [hchan, hi]; rfl) hchild hzombie) hasleep
        next => exact ⟨hi, hzombie⟩

/-- A step of `fork` takes no child away and leaves no ZOMBIE. -/
theorem ForkStep.hasWork {p np q : Fin nproc} {slot : Proc nproc}
    {stage : Option (Fin nproc × ForkStage)} (h : ForkStep k k' p np slot stage)
    (hwork : ∀ q, k.Waits q → k.HasWork q) (hq : k'.Waits q) : k'.HasWork q := by
  obtain ⟨hstate, hchan⟩ := hq
  have hqnp : q ≠ np := by
    rintro rfl
    rw [h.slot_eq] at hstate
    have hslot := h.slot_right.state
    rw [hstate] at hslot
    simp at hslot
  rw [h.state_eq hqnp] at hstate
  rw [h.chan_eq hqnp] at hchan
  apply (hwork q ⟨hstate, hchan⟩).mono
  · intro i hi
    by_cases hinp : i = np
    · subst hinp
      rw [h.slot_eq]
      exact h.slot_right.kept q hi
    · rw [h.parent_eq hinp, hi]
  · intro i hi hiz
    have hinp : i ≠ np := by
      rintro rfl
      rw [h.slot_eq] at hiz
      have hslot := h.slot_right.state
      rw [hiz] at hslot
      simp at hslot
    exact ⟨h.parent_eq hinp ▸ hi, h.state_eq hinp ▸ hiz⟩

theorem Effect.hasWork (h : Effect k a k' events) (hk : k.Consistent) (hfam : k.Family)
    (hok : Admits sleepsOffTable k a) (hwork : ∀ p, k.Waits p → k.HasWork p) {p : Fin nproc}
    (hp : k'.Waits p) : k'.HasWork p := by
  have hunused := hfam.parent_unused
  have ⟨hstate, hchan⟩ := hp
  cases h.kinEffect hk hfam with
  | stay h =>
      have hwork' := (h.waits hok hp).elim (hwork p) id
      exact hwork'.sameKin (h.sameKin hk)
  | fork h => exact h.hasWork hwork hp
  | exit _ _ _ hwakes => exact exit_hasWork (hfam.parent_ne _) hwakes hwork hp
  | userinit hnone hi =>
      simp only [startInit, allocSlot, setProc_proc] at hstate hchan
      apply (hwork p (by unfold Waits; grind)).mono <;>
        simp only [startInit, allocSlot, setProc_proc] <;> grind
  | reap hq hparent hi =>
      simp only [State.reap, setProc_proc] at hstate hchan
      apply (hwork p (by unfold Waits; grind)).mono <;>
        simp only [State.reap, setProc_proc] <;> grind

/-- Whenever `ptable.lock` is free, a process asleep in `wait` has a child in use,
and none of its children is a ZOMBIE. -/
theorem wait_has_child {history : List (Event nproc)}
    (h : Reach State.step sleepsOffTable (.boot nproc ncpu) history k) {p : Fin nproc}
    (hstate : (k.proc p).state = .sleeping) (hchan : (k.proc p).chan = .proc p) :
    (∃ i, (k.proc i).parent = some p ∧ (k.proc i).state ≠ .unused) ∧
      ∀ i, (k.proc i).parent = some p → (k.proc i).state ≠ .zombie := by
  have hinv := reach_invariant
    (fun _ k => k.Consistent ∧ k.Family ∧ ∀ p, k.Waits p → k.HasWork p)
    ⟨boot_consistent, boot_family, fun p hp => absurd hp (boot_waits p)⟩
    (fun _ _ _ _ _ hk hok heffect => ⟨heffect.consistent hk.1, heffect.family hk.1 hk.2.1,
      fun _ hp => heffect.hasWork hk.1 hk.2.1 hok hk.2.2 hp⟩) h
  obtain ⟨-, hfam, hwork⟩ := hinv
  obtain ⟨⟨i, hi⟩, hzombie⟩ := hwork p ⟨hstate, hchan⟩
  refine ⟨⟨i, hi, ?_⟩, hzombie⟩
  intro hunused
  rw [hfam.parent_unused i hunused] at hi
  cases hi

/-- `initproc` forks and waits for its child. -/
def forkWait (c : Fin ncpu) : List (Action nproc ncpu) :=
  [.userinit, .scheduler c 0, .forkAlloc c, .forkKalloc c true, .forkCopy c true, .forkFinish c,
    .wait c]

theorem forkWait_isSome : (run State.step (.boot 2 1) (forkWait 0)).isSome := by decide +kernel

theorem wait_has_child_forkWait : ∃ history k,
    Reach State.step sleepsOffTable (.boot 2 1) history k ∧
      ∃ i, (k.proc i).parent = some 0 ∧ (k.proc i).state ≠ .unused := by
  have hreach : Reach State.step sleepsOffTable (.boot 2 1) _ _ :=
    Reach.of_isSome (forkWait 0) (by decide +kernel) forkWait_isSome
  exact ⟨_, _, hreach, (wait_has_child hreach (by decide +kernel) (by decide +kernel)).1⟩

end OsCourse.Kernel
