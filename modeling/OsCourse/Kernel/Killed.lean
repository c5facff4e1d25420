import OsCourse.Kernel.Pids

/-! # Killed flags

`kill` looks for a pid in every slot, in use or not, and `allocproc` does not
clear the flag of the slot it hands out. A flag set in a free slot, or left
behind by a `fork` that fails, is therefore inherited by the next process in
that slot. Without these two ways the flag of a process tells of a `kill` with
its own pid.
-/

namespace OsCourse.Kernel

open Transition State

variable {nproc ncpu : Nat}

/-- The slot `i` got the pid `n`, and has not been allocated again. -/
def Assigned (history : List (Event nproc)) (i : Fin nproc) (n : Int) : Prop :=
  ∃ first last, history = first ++ .alloc i n :: last ∧ ∀ m, .alloc i m ∉ last

/-- `kill` was called with the pid `n` after the slot `i` got it. -/
def KilledSince (history : List (Event nproc)) (i : Fin nproc) (n : Int) : Prop :=
  ∃ first last, history = first ++ .alloc i n :: last ∧ (∀ m, .alloc i m ∉ last) ∧
    ∃ ret, .kill n ret ∈ last

/-- What a call of `kill` is to do: mark the process with the pid and return 0,
or return -1 if there is none. -/
def KillOutcome (k k' : State nproc ncpu) (pid : Int) (events : List (Event nproc)) : Prop :=
  (events = [.kill pid 0] ∧ ∃ i, (k.proc i).pid = pid ∧ (k.proc i).state ≠ .unused ∧
    ∀ q, q ≠ i → k'.proc q = k.proc q) ∨
  (events = [.kill pid (-1)] ∧ (∀ i, (k.proc i).state ≠ .unused → (k.proc i).pid ≠ pid) ∧ k' = k)

/-- A step treats killed flags right: `kill` has its outcome, and a child that
becomes RUNNABLE is marked only if `kill` was called with its pid. -/
structure KillsRight (history : List (Event nproc)) (k : State nproc ncpu)
    (a : Action nproc ncpu) (k' : State nproc ncpu) (events : List (Event nproc)) : Prop where
  outcome : ∀ c pid, a = .kill c pid → KillOutcome k k' pid events
  child : ∀ np, (k.proc np).state = .embryo → (k'.proc np).state = .runnable →
    (k'.proc np).killed = true → KilledSince (history ++ events) np (k'.proc np).pid

/-- The slot of the `fork` in progress on CPU `c` is not marked. -/
def State.ForkUnmarked (k : State nproc ncpu) (c : Fin ncpu) : Prop :=
  ∀ p np stage, k.cpu c = some p → (k.proc p).forking = some (np, stage) →
    (k.proc np).killed = false

/-- The first slot with the pid of a `kill` is in use, and a slot given back by a
failing `fork` is not marked. -/
def killsInUse (k : State nproc ncpu) : Action nproc ncpu → Prop
  | .kill _ pid => ∀ i, (k.proc i).pid = pid → (∀ j, j < i → (k.proc j).pid ≠ pid) →
      (k.proc i).state ≠ .unused
  | .forkKalloc c false => k.ForkUnmarked c
  | .forkCopy c false => k.ForkUnmarked c
  | _ => True

instance (k : State nproc ncpu) (c : Fin ncpu) : Decidable (k.ForkUnmarked c) :=
  decidable_of_iff
    (∀ p ∈ k.cpu c, ∀ np ∈ (k.proc p).forking, (k.proc np.1).killed = false)
    ⟨fun h p np stage hp hnp => h p hp (np, stage) hnp, fun h p hp np hnp => h p np.1 np.2 hp hnp⟩

instance (k : State nproc ncpu) : ∀ a, Decidable (killsInUse k a)
  | .kill _ pid => inferInstanceAs (Decidable (∀ i, (k.proc i).pid = pid →
      (∀ j, j < i → (k.proc j).pid ≠ pid) → (k.proc i).state ≠ .unused))
  | .forkKalloc c false | .forkCopy c false => inferInstanceAs (Decidable (k.ForkUnmarked c))
  | .forkKalloc _ true | .forkCopy _ true | .userinit | .forkAlloc _ | .forkFinish _ | .exit _
  | .wait _ | .sleep _ _ | .wakeup _ | .yield _ | .scheduler _ _ | .settickets _ _ =>
      .isTrue trivial

/-- The flags of the slots in use are explained by the history, and those of free
slots are clear. -/
structure KilledKnown (history : List (Event nproc)) (k : State nproc ncpu) : Prop where
  unused : ∀ i, (k.proc i).state = .unused → (k.proc i).killed = false
  assigned : ∀ i, (k.proc i).state ≠ .unused → Assigned history i (k.proc i).pid
  killed : ∀ i, (k.proc i).state ≠ .unused → (k.proc i).killed = true →
    KilledSince history i (k.proc i).pid

theorem boot_killedKnown : KilledKnown [] (.boot nproc ncpu) := by
  constructor <;> simp [boot, Proc.zero]

variable {k k' : State nproc ncpu} {a : Action nproc ncpu} {history events : List (Event nproc)}
  {i : Fin nproc} {n : Int}

theorem Assigned.append (h : Assigned history i n) (hevents : ∀ m, .alloc i m ∉ events) :
    Assigned (history ++ events) i n := by
  obtain ⟨first, last, heq, hlast⟩ := h
  refine ⟨first, last ++ events, by simp [heq], ?_⟩
  intro m hm
  exact (List.mem_append.mp hm).elim (hlast m) (hevents m)

theorem Assigned.kill (h : Assigned history i n) (ret : Int) :
    KilledSince (history ++ [.kill n ret]) i n := by
  obtain ⟨first, last, heq, hlast⟩ := h
  refine ⟨first, last ++ [.kill n ret], by simp [heq], ?_, ret, by simp⟩
  intro m hm
  simp only [List.mem_append, List.mem_singleton, reduceCtorEq, or_false] at hm
  exact hlast m hm

theorem KilledSince.append (h : KilledSince history i n) (hevents : ∀ m, .alloc i m ∉ events) :
    KilledSince (history ++ events) i n := by
  obtain ⟨first, last, heq, hlast, ret, hkill⟩ := h
  refine ⟨first, last ++ events, by simp [heq], ?_, ret, List.mem_append_left _ hkill⟩
  intro m hm
  exact (List.mem_append.mp hm).elim (hlast m) (hevents m)

/-- `findPid` finds the first slot. -/
theorem findPid_first {t : Table nproc} {pid : Int} (h : findPid t pid = some i) (j : Fin nproc)
    (hj : j < i) : (t j).pid ≠ pid := by
  obtain ⟨-, index, hindex, heq, hbefore⟩ := List.find?_eq_some_iff_getElem.mp h
  have hlt : j.val < index := by
    rw [← heq, List.getElem_finRange] at hj
    exact hj
  simpa using hbefore j.val hlt

/-- Only `kill` sets the flag of a slot. -/
theorem Effect.killed_cases (h : Effect k a k' events) (q : Fin nproc)
    (hq : (k'.proc q).killed = true) : (k.proc q).killed = true ∨
      ∃ c pid, a = .kill c pid ∧ findPid k.proc pid = some q ∧ events = [.kill pid 0] := by
  -- most effects write one slot, and the steps of `fork` two, without the flag
  have hone : ∀ {i : Fin nproc} {p : Proc nproc}, ((k.setProc i p).proc q).killed = true →
      p.killed = (k.proc i).killed → (k.proc q).killed = true :=
    fun hq heq => (k.setProc_keeps Proc.killed heq q).symm.trans hq
  have htwo : ∀ {p np : Fin nproc} {slot : Proc nproc} {stage : Option (Fin nproc × ForkStage)},
      (((k.setProc np slot).setForking p stage).proc q).killed = true →
      slot.killed = (k.proc np).killed → (k.proc q).killed = true :=
    fun hq heq => (k.setForking_keeps Proc.killed (fun _ _ => rfl) heq q).symm.trans hq
  cases h with
  | stay h =>
      cases h with
      | @kill c pid i hpid =>
          by_cases heq : q = i
          · exact .inr ⟨c, pid, rfl, heq ▸ hpid, rfl⟩
          · simp only [markKilled, setProc_proc, if_neg heq] at hq
            exact .inl hq
      | none => exact .inl hq
      | waitSleep hc => exact .inl (hone hq rfl)
      | sleep hc => exact .inl (hone hq rfl)
      | yield hc => exact .inl (hone hq rfl)
      | dispatch hc => exact .inl (hone hq rfl)
      | clearChan hc => exact .inl (hone hq rfl)
      | settickets hc => exact .inl (hone hq rfl)
      | @wakeup chan =>
          have hwoken := congrArg Proc.killed (wakeup1_woken k.proc chan q)
          exact .inl (hwoken.symm.trans hq)
  | userinit hinit hi =>
      simp only [startInit, allocSlot, setProc_proc] at hq
      grind
  | forkAlloc hc => exact .inl (htwo hq rfl)
  | forkKstack hc => exact .inl (htwo hq rfl)
  | forkCopy hc => exact .inl (htwo hq rfl)
  | forkAbort hc => exact .inl (htwo hq rfl)
  | forkFinish hc => exact .inl (htwo hq rfl)
  | exit hc => exact .inl hq
  | @reap a c p i hc =>
      by_cases heq : q = i
      · simp [State.reap, heq] at hq
      · simp only [State.reap, setProc_proc, if_neg heq] at hq
        exact .inl hq

/-- A slot becomes free by `wait`, which clears its flag, or by a failing `fork`. -/
theorem Effect.unused_cases (h : Effect k a k' events) (hk : k.Consistent) (q : Fin nproc)
    (hq : (k'.proc q).state = .unused) :
    (k.proc q).state = .unused ∨ (k'.proc q).killed = false ∨
      ∃ c p stage, k.cpu c = some p ∧ (k.proc p).forking = some (q, stage) ∧ stage ≠ .copied ∧
        (a = .forkKalloc c false ∨ a = .forkCopy c false) := by
  cases h with
  | stay h =>
      have hkin := h.sameKin hk
      rcases hkin.state q with heq | ⟨-, hactive⟩
      · exact .inl (heq ▸ hq)
      · rw [hq] at hactive
        simp [ProcState.Active] at hactive
  | userinit hinit hi =>
      simp only [startInit, allocSlot, setProc_proc] at hq
      grind
  | forkAlloc hc =>
      simp only [setForking, allocSlot, setProc_proc] at hq
      grind
  | forkKstack hc =>
      simp only [setForking, setProc_proc] at hq
      grind
  | forkCopy hc =>
      simp only [setForking, setProc_proc] at hq
      grind
  | @forkAbort a c p np stage hc hfork hstage ha =>
      by_cases heq : q = np
      · exact .inr (.inr ⟨c, p, stage, hc, heq ▸ hfork, hstage, ha⟩)
      · simp only [abortFork, setForking, setProc_proc] at hq
        grind
  | forkFinish hc =>
      simp only [setForking, setProc_proc] at hq
      grind
  | exit hc =>
      simp only [exitWith] at hq
      grind
  | @reap a c p i hc =>
      by_cases heq : q = i
      · right
        left
        simp [State.reap, heq]
      · simp only [State.reap, setProc_proc, if_neg heq] at hq
        exact .inl hq

/-- A slot in use was in use before with the same pid, or has just got its pid. -/
theorem Entry.slot_cases (h : Entry k k' events) (hi : (k'.proc i).state ≠ .unused) :
    ((k.proc i).state ≠ .unused ∧ (k'.proc i).pid = (k.proc i).pid ∧
        ∀ m, .alloc i m ∉ events) ∨
      ((k.proc i).state = .unused ∧ events = [.alloc i (k'.proc i).pid]) := by
  cases h with
  | quiet hkeeps hquiet =>
      obtain ⟨hold, hpid⟩ := hkeeps.pid i hi
      exact .inl ⟨hold, hpid, fun m hm => hquiet _ hm⟩
  | fork hkeeps =>
      obtain ⟨hold, hpid⟩ := hkeeps.pid i hi
      exact .inl ⟨hold, hpid, by simp⟩
  | exit hkeeps =>
      obtain ⟨hold, hpid⟩ := hkeeps.pid i hi
      exact .inl ⟨hold, hpid, by simp⟩
  | reap hkeeps =>
      obtain ⟨hold, hpid⟩ := hkeeps.pid i hi
      exact .inl ⟨hold, hpid, by simp⟩
  | @alloc np hnp _ hpid _ _ hothers =>
      by_cases heq : i = np
      · exact .inr ⟨heq ▸ hnp, by rw [heq, hpid]⟩
      · obtain ⟨hsame, hstate⟩ := hothers i heq
        exact .inl ⟨hstate ▸ hi, hsame, by simp [heq]⟩

theorem Effect.killedKnown (h : Effect k a k' events) (hk : k.Consistent) (hfam : k.Family)
    (hok : Admits killsInUse k a) (hkilled : KilledKnown history k) :
    KilledKnown (history ++ events) k' := by
  have hentry := h.entry hk hfam
  -- a slot that `kill` finds is in use
  have hfound : ∀ c pid q, a = .kill c pid → findPid k.proc pid = some q →
      (k.proc q).state ≠ .unused := by
    rintro c pid q rfl hfind
    rcases hok with ⟨_, _, ha⟩ | hok
    · cases ha
    · exact hok q (findPid_some hfind) (findPid_first hfind)
  refine ⟨?_, ?_, ?_⟩
  · intro q hq
    rw [← Bool.not_eq_true]
    intro hset
    rcases h.killed_cases q hset with hold | ⟨c, pid, rfl, hfind, rfl⟩
    · rcases h.unused_cases hk q hq with hunused | hclear | ⟨c, p, stage, hc, hfork, hstage, ha⟩
      · rw [hkilled.unused q hunused] at hold
        cases hold
      · rw [hclear] at hset
        cases hset
      · have hclear : (k.proc q).killed = false := by
          rcases hok with ⟨_, _, rfl⟩ | hok
          · simp at ha
          · rcases ha with rfl | rfl
            · exact hok p q stage hc hfork
            · exact hok p q stage hc hfork
        rw [hclear] at hold
        cases hold
    · rcases h.unused_cases hk q hq with hunused | hclear | ⟨c, p, stage, hc, hfork, hstage, ha⟩
      · exact hfound c pid q rfl hfind hunused
      · rw [hclear] at hset
        cases hset
      · simp at ha
  · intro i hi
    rcases hentry.slot_cases hi with ⟨hold, hpid, hevents⟩ | ⟨-, heq⟩
    · rw [hpid]
      exact (hkilled.assigned i hold).append hevents
    · exact ⟨history, [], by rw [heq], by simp⟩
  · intro i hi hset
    rcases hentry.slot_cases hi with ⟨hold, hpid, hevents⟩ | ⟨hunused, heq⟩
    · rw [hpid]
      rcases h.killed_cases i hset with hold' | ⟨c, pid, rfl, hfind, rfl⟩
      · exact (hkilled.killed i hold hold').append hevents
      · rw [← findPid_some hfind]
        exact (hkilled.assigned i hold).kill 0
    · rcases h.killed_cases i hset with hold' | ⟨c, pid, rfl, hfind, rfl⟩
      · rw [hkilled.unused i hunused] at hold'
        cases hold'
      · cases heq

theorem killedKnown_of_reach (h : Reach State.step killsInUse (.boot nproc ncpu) history k) :
    KilledKnown history k := by
  have hinv := reach_invariant
    (fun history k => k.Consistent ∧ k.Family ∧ KilledKnown history k)
    ⟨boot_consistent, boot_family, boot_killedKnown⟩
    (fun _ _ _ _ _ hk hok heffect => ⟨heffect.consistent hk.1, heffect.family hk.1 hk.2.1,
      heffect.killedKnown hk.1 hk.2.1 hok hk.2.2⟩) h
  exact hinv.2.2

/-- The search of `kill` comes out right when it ends at a slot in use. -/
theorem kill_outcome {c : Fin ncpu} {pid : Int} (hok : killsInUse k (.kill c pid))
    (hstep : k.step (.kill c pid) = some (k', events)) : KillOutcome k k' pid events := by
  obtain ⟨p, -, h⟩ := Option.map_eq_some_iff.mp hstep
  split at h
  next hnone =>
    cases h
    exact .inr ⟨rfl, fun i _ => findPid_none hnone i, rfl⟩
  next i hfind =>
    cases h
    refine .inl ⟨rfl, i, findPid_some hfind, hok i (findPid_some hfind) (findPid_first hfind), ?_⟩
    intro q hq
    simp [markKilled, hq]

/-- In every run in which each `kill` first finds a slot in use and each failing
`fork` gives back an unmarked slot, every step treats killed flags right. -/
theorem killsRight_of_killsInUse (h : Reach State.step killsInUse (.boot nproc ncpu) history k)
    (hok : killsInUse k a) (hstep : k.step a = some (k', events)) :
    KillsRight history k a k' events := by
  refine ⟨?_, ?_⟩
  · rintro c pid rfl
    exact kill_outcome hok hstep
  · intro np _ hrunnable hset
    apply (killedKnown_of_reach (h.step hok hstep)).killed np _ hset
    rw [hrunnable]
    exact ProcState.noConfusion

/-- `initproc` has started. -/
def initRuns (c : Fin ncpu) : List (Action nproc ncpu) := [.userinit, .scheduler c 0]

theorem initRuns_isSome : ∀ c, (run State.step (.boot 2 1) (initRuns c)).isSome := by
  decide +kernel

def afterInitRuns (c : Fin 1) : State 2 1 :=
  ((run State.step (.boot 2 1) (initRuns c)).get (initRuns_isSome c)).1

/-- `initproc` has one child, has copied a second and is preempted; the first child
kills the second, and `initproc` goes on with its `fork`. -/
def killChild (c : Fin ncpu) : List (Action nproc ncpu) :=
  initRuns c ++
    [.forkAlloc c, .forkKalloc c true, .forkCopy c true, .forkFinish c,
      .forkAlloc c, .forkKalloc c true, .forkCopy c true, .yield c,
      .scheduler c (magicTicketNum + 1), .kill c 3, .yield c, .scheduler c 0]

theorem killChild_isSome : ∀ c, (run State.step (.boot 3 1) (killChild c)).isSome := by
  decide +kernel

def afterKillChild (c : Fin 1) : State 3 1 :=
  ((run State.step (.boot 3 1) (killChild c)).get (killChild_isSome c)).1

theorem killsRight_of_killsInUse_initRuns :
    (∃ history k' events, Reach State.step killsInUse (.boot 2 1) history (afterInitRuns 0) ∧
      (afterInitRuns 0).step (.kill 0 1) = some (k', events) ∧
      KillsRight history (afterInitRuns 0) (.kill 0 1) k' events) ∧
    (∃ history k' events, Reach State.step killsInUse (.boot 3 1) history (afterKillChild 0) ∧
      (afterKillChild 0).step (.forkFinish 0) = some (k', events) ∧
      (k'.proc 2).state = .runnable ∧ (k'.proc 2).killed = true ∧
      KillsRight history (afterKillChild 0) (.forkFinish 0) k' events) := by
  constructor
  · have hreach : Reach State.step killsInUse (.boot 2 1) _ (afterInitRuns 0) :=
      Reach.of_isSome (initRuns 0) (by decide +kernel) (initRuns_isSome 0)
    have hsome : ((afterInitRuns 0).step (.kill 0 1)).isSome := by decide +kernel
    have hstep := (Option.some_get hsome).symm
    exact ⟨_, _, _, hreach, hstep, killsRight_of_killsInUse hreach (by decide +kernel) hstep⟩
  · have hreach : Reach State.step killsInUse (.boot 3 1) _ (afterKillChild 0) :=
      Reach.of_isSome (killChild 0) (by decide +kernel) (killChild_isSome 0)
    have hfork : ((afterKillChild 0).step (.forkFinish 0)).map
        (fun r => ((r.1.proc 2).state, (r.1.proc 2).killed)) = some (.runnable, true) := by
      decide +kernel
    obtain ⟨⟨k', events⟩, hstep, heq⟩ := Option.map_eq_some_iff.mp hfork
    obtain ⟨hstate, hkilled⟩ := Prod.mk.inj heq
    exact ⟨_, k', events, hreach, hstep, hstate, hkilled,
      killsRight_of_killsInUse hreach trivial hstep⟩

/-- `initproc` calls `kill(0)`, and is then in `fork` with its child copied. -/
def killZero (c : Fin ncpu) : List (Action nproc ncpu) :=
  initRuns c ++ [.kill c 0, .forkAlloc c, .forkKalloc c true, .forkCopy c true]

theorem killZero_isSome : ∀ c, (run State.step (.boot 2 1) (killZero c)).isSome := by
  decide +kernel

def afterKillZero (c : Fin 1) : State 2 1 :=
  ((run State.step (.boot 2 1) (killZero c)).get (killZero_isSome c)).1

/-- `kill(0)` returns 0 although no slot in use has the pid 0, and the next child
starts out marked although `kill` was not called with its pid. -/
theorem killZero_not_right :
    (∃ history k' events, Reach State.step anyStep (.boot 2 1) history (afterInitRuns 0) ∧
      (afterInitRuns 0).step (.kill 0 0) = some (k', events) ∧
      ¬ KillsRight history (afterInitRuns 0) (.kill 0 0) k' events) ∧
    (∃ history k' events, Reach State.step anyStep (.boot 2 1) history (afterKillZero 0) ∧
      (afterKillZero 0).step (.forkFinish 0) = some (k', events) ∧
      ¬ KillsRight history (afterKillZero 0) (.forkFinish 0) k' events) := by
  refine ⟨?_, ?_⟩
  · have hreach := Reach.of_isSome (initRuns 0) (admitted_anyStep _ _) (initRuns_isSome 0)
    have hkill : ((afterInitRuns 0).step (.kill 0 0)).map Prod.snd = some [.kill 0 0] := by
      decide +kernel
    obtain ⟨⟨k', events⟩, hstep, hevents⟩ := Option.map_eq_some_iff.mp hkill
    refine ⟨_, k', events, hreach, hstep, ?_⟩
    intro hright
    rcases hright.outcome 0 0 rfl with ⟨-, i, hpid, hlive, -⟩ | ⟨hfail, -⟩
    · revert i
      decide +kernel
    · cases hevents.symm.trans hfail
  · have hreach := Reach.of_isSome (killZero 0) (admitted_anyStep _ _) (killZero_isSome 0)
    have hhistory : ((run State.step (.boot 2 1) (killZero 0)).get (killZero_isSome 0)).2 =
        [.alloc 0 1, .switch 0, .kill 0 0, .alloc 1 2] := by decide +kernel
    rw [hhistory] at hreach
    have hfork : ((afterKillZero 0).step (.forkFinish 0)).map
        (fun r => (r.2, (r.1.proc 1).state, (r.1.proc 1).killed, (r.1.proc 1).pid)) =
        some ([.fork 1 2], .runnable, true, 2) := by decide +kernel
    obtain ⟨⟨k', events⟩, hstep, heq⟩ := Option.map_eq_some_iff.mp hfork
    simp only [Prod.mk.injEq] at heq
    obtain ⟨rfl, hstate, hkilled, hpid⟩ := heq
    refine ⟨_, k', _, hreach, hstep, ?_⟩
    intro hright
    obtain ⟨first, last, hsplit, -, ret, hmem⟩ :=
      hright.child 1 (by decide +kernel) hstate hkilled
    -- the only call of `kill` in the history is `kill(0)`
    have hkill := List.mem_append_right first
      (List.mem_cons_of_mem (.alloc 1 (k'.proc 1).pid) hmem)
    rw [← hsplit, hpid] at hkill
    simp at hkill

end OsCourse.Kernel
