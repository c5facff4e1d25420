import OsCourse.Kernel.LockRefinement

/-! # Runs with the lock

Every step with the lock is seen as one step of the kernel whose critical
sections are atomic, or not at all. So what holds of all runs of that kernel
holds with the lock, `sched` and `release` find the lock as they want it, and
the lottery draws from one table although `fork` and `sys_settickets` write to
it meanwhile.
-/

namespace OsCourse.Kernel

open MachineInt Mutex Transition

variable {nproc ncpu : Nat}

namespace LockState

variable {l : LockState nproc ncpu}

/-! ## After the switch -/

/-- What a process does behind `sched` is done by the lottery that chose it. -/
theorem Coherent.resume_step (h : l.Coherent) (hk : l.atomic.Consistent) {c : Fin ncpu}
    {p : Fin nproc} {w : Int} (hc : l.mode c = .running w p) (hplace : l.place p = .returning) :
    Simulated l (l.resume p) := by
  have hp : (l.place p).Locked := by rw [hplace]; trivial
  have hcalling : l.place p ≠ .calling := by simp [hplace]
  have hrunning := h.running_of_mode hk hc hcalling
  have hholds : l.Holds c := by simpa [Holds, hc] using hp
  have hpick : pick l.seenProc w = some p := by
    have hdraws := h.draws c
    simp only [Draws, hc] at hdraws
    exact hdraws hplace
  have hdispatch : l.atomic.dispatch c p =
      withCpu l.kernel (Function.update l.seenCpu c (some p)) := by
    refine congrArg (fun t => State.mk t (Function.update l.seenCpu c (some p))
      l.kernel.initproc l.kernel.nextpid) (funext fun q => ?_)
    rw [State.setProc_proc, atomic_proc]
    by_cases hqp : q = p
    · rw [if_pos hqp, hqp, seenProc, if_pos ⟨hrunning, hplace⟩, ← hrunning]
    · rw [if_neg hqp]
      refine if_neg fun hq => hqp ?_
      -- another thread behind `sched` would hold the lock too
      obtain ⟨d, w', hd⟩ := ((h.slots q).returning hq.2).mp hq.1
      have hdc : d = c := h.exclusive (by simp [Holds, hd, hq.2, Place.Locked]) hholds
      rw [hdc, hc] at hd
      cases hd
      rfl
  have hidle : l.seenCpu c = none := by simp [seenCpu, hc, hplace]
  have hstep : ∀ {r : LockState nproc ncpu × List (Event nproc)}, r.1.Coherent →
      (r.1.atomic, r.2) = (((withCpu l.kernel (Function.update l.seenCpu c (some p))).resume c p).1,
        .switch p :: ((withCpu l.kernel (Function.update l.seenCpu c (some p))).resume c p).2) →
      Simulated l r := by
    intro r hcoherent heq
    refine ⟨hcoherent, .inr ⟨.scheduler c w, ?_⟩⟩
    simp only [State.step, atomic_cpu, atomic_proc, hidle, hpick, if_true, hdispatch]
    rw [heq]
  have hfinish : ∀ {k : State nproc ncpu}, SameStates l k →
      (withCpu l.kernel (Function.update l.seenCpu c (some p))).resume c p =
        (withCpu k (Function.update l.seenCpu c (some p)), []) →
      Simulated l (l.finish p k [.switch p]) := by
    intro k hsame hresume
    obtain ⟨hcoherent, heq⟩ := h.finish hk hc hp hcalling (hsame.write p)
      (by rw [hsame.state, hrunning]) [.switch p]
    refine hstep hcoherent ?_
    rw [heq, hresume]
    rfl
  unfold resume
  cases hcontext : (l.kernel.proc p).context with
  | forkret => exact hfinish (SameStates.self l) (by simp [State.resume, hcontext])
  | yield => exact hfinish (SameStates.self l) (by simp [State.resume, hcontext])
  | sleep =>
      refine hfinish (SameStates.clearChan l p) ?_
      simp only [State.resume, withCpu_proc, hcontext]
      rfl
  | waitSleep =>
      obtain ⟨hcoherent, heq⟩ := h.waitLoop hk hc hp hcalling (SameStates.clearChan l p) [.switch p]
      refine hstep hcoherent ?_
      rw [heq]
      simp only [State.resume, withCpu_proc, hcontext]
      rfl

/-! ## An interrupt on an idle CPU -/

theorem Coherent.wake_step (h : l.Coherent) {c : Fin ncpu} {chan : Chan nproc}
    (hc : l.mode c = .waking chan) :
    Simulated l ((l.setKernel { l.kernel with proc := wakeup1 l.kernel.proc chan }).setMode c
      .releasing, []) := by
  have hholds : l.Holds c := by simp [Holds, hc]
  have hothers : ∀ d w q, l.mode d = .running w q → ¬ (l.place q).Locked := by
    intro d w q hd hq
    have hdc : d = c := h.exclusive (by simpa [Holds, hd] using hq) hholds
    rw [hdc, hc] at hd
    cases hd
  have hrunning : ∀ q, (wakeup1 l.kernel.proc chan q).state = .running ↔
      (l.kernel.proc q).state = .running := by
    intro q
    simp only [wakeup1]
    split
    next hq => simp [hq.1]
    next => rfl
  have hon : ∀ q, ((l.setKernel { l.kernel with proc := wakeup1 l.kernel.proc chan }).setMode c
      .releasing).OnCpu q ↔ l.OnCpu q :=
    fun q => onCpu_congr (c := c) (fun d hdc => by simp [hdc]) (by simp [hc])
  have hspot : ∀ d, d ≠ c → SameSpot l ((l.setKernel { l.kernel with
      proc := wakeup1 l.kernel.proc chan }).setMode c .releasing) d :=
    fun d hdc => ⟨by simp [hdc], fun _ _ _ => rfl⟩
  have hseen : l.seenProc = l.kernel.proc := h.seenProc_eq hholds (by simp [hc])
  have hforking : ∀ q, (wakeup1 l.kernel.proc chan q).forking = (l.kernel.proc q).forking := by
    intro q
    simp [wakeup1_woken]
  constructor
  · refine ⟨h.lock_of_pass (c := c) (.keep rfl (by simp [Holds, hc])) hspot,
      fun q => ⟨fun hstate => ?_, fun hq => ?_, fun hq => ?_⟩, ?_, fun q r hq => ?_, fun d => ?_⟩
    · refine (h.slots q).parked ?_
      simp only [setMode_kernel, setKernel_kernel, wakeup1] at hstate
      split at hstate
      next hq => exact .inr hq.1
      next => exact hstate
    · rw [hon]
      exact (hrunning q).trans ((h.slots q).returning hq)
    · obtain ⟨⟨d, w, hd⟩, -⟩ := (h.slots q).calling hq
      have hcalling : l.place q = .calling := hq
      exact absurd (by rw [hcalling]; trivial) (hothers d w q hd)
    · intro q np stage hfork hstage
      exact h.child q np stage ((hforking q).symm.trans hfork) hstage
    · exact admits_congr (hforking q) id (h.admits q r hq)
    · by_cases hdc : d = c
      · simp [Draws, hdc]
      · exact draws_of_not_holds fun hd => hdc (h.exclusive ((hspot d hdc).holds.mp hd) hholds)
  · have hatomic : ((l.setKernel { l.kernel with proc := wakeup1 l.kernel.proc chan }).setMode c
        .releasing).atomic = { l.atomic with proc := wakeup1 l.atomic.proc chan } := by
      refine atomic_eq (fun q => ?_) (fun d => ?_) rfl rfl
      · simp only [atomic_proc, hseen]
        refine if_neg fun hq => ?_
        obtain ⟨d, w, hd⟩ := ((h.slots q).returning hq.2).mp ((hrunning q).mp hq.1)
        have hreturning : l.place q = .returning := hq.2
        exact hothers d w q hd (by rw [hreturning]; trivial)
      · by_cases hdc : d = c
        · subst hdc
          simp [seenCpu, hc]
        · exact (hspot d hdc).seenCpu
    exact .inr ⟨.wakeup chan, by rw [hatomic]; rfl⟩

/-! ## Writes outside the lock -/

theorem freeOn_eq_some {c : Fin ncpu} {p : Fin nproc} :
    l.freeOn c = some p ↔ (∃ w, l.mode c = .running w p) ∧ l.place p = .free := by
  unfold freeOn
  cases hmode : l.mode c with
  | running w q =>
      constructor
      · intro h
        dsimp only at h
        split at h
        next hplace =>
          cases h
          exact ⟨⟨w, rfl⟩, hplace⟩
        next => cases h
      · rintro ⟨⟨w', hc⟩, hplace⟩
        cases hc
        exact if_pos hplace
  | _ => simp

/-- What `p` writes outside the critical sections is in its own slot, which is
RUNNING, or in the EMBRYO of its `fork`. -/
structure OpenWrite (l l' : LockState nproc ncpu) (p : Fin nproc) : Prop where
  mode : l'.mode = l.mode
  lock : l'.lock = l.lock
  initproc : l'.kernel.initproc = l.kernel.initproc
  place : ∀ q, l'.place q = l.place q ∨
    (l.kernel.proc q).state = .embryo ∧ l'.place q = .returning
  state : ∀ q, (l'.kernel.proc q).state = (l.kernel.proc q).state ∨
    (l.kernel.proc q).state = .embryo ∧ (l'.kernel.proc q).state = .unused
  tickets : ∀ q, q ≠ p → (l'.kernel.proc q).tickets = (l.kernel.proc q).tickets
  forking : ∀ q, q ≠ p → (l'.kernel.proc q).forking = (l.kernel.proc q).forking
  child : ∀ np stage, (l'.kernel.proc p).forking = some (np, stage) → stage ≠ .allocated →
    l'.place np = .returning

theorem Coherent.openWrite (h : l.Coherent) (hk : l.atomic.Consistent)
    {l' : LockState nproc ncpu} {c : Fin ncpu} {p : Fin nproc} (hfree : l.freeOn c = some p)
    (hw : OpenWrite l l' p) : l'.Coherent := by
  obtain ⟨⟨w, hc⟩, hplace⟩ := freeOn_eq_some.mp hfree
  have hrunning := h.running_of_mode hk hc (by simp [hplace])
  have hembryo : ∀ q, (l.kernel.proc q).state = .embryo → ¬ l.OnCpu q :=
    fun q hq => h.not_onCpu hk (.inl hq)
  have hsame : ∀ q, (l.kernel.proc q).state ≠ .embryo →
      l'.place q = l.place q ∧ (l'.kernel.proc q).state = (l.kernel.proc q).state :=
    fun q hq => ⟨(hw.place q).resolve_right fun heq => hq heq.1,
      (hw.state q).resolve_right fun heq => hq heq.1⟩
  have hon : ∀ q, l'.OnCpu q ↔ l.OnCpu q := by
    intro q
    unfold OnCpu
    rw [hw.mode]
  have hspot : ∀ d, SameSpot l l' d :=
    fun d => ⟨by rw [hw.mode], fun w' q hd => (hsame q fun heq => hembryo q heq ⟨d, w', hd⟩).1⟩
  have hlottery : SameLottery l.seenProc l'.seenProc := by
    intro q
    by_cases hq : (l.kernel.proc q).state = .embryo
    · have hstate : (l.seenProc q).state = .embryo := by
        rw [seenProc_of_state (by simp [hq]), hq]
      have hstate' : (l'.seenProc q).state ≠ .runnable := by
        rcases hw.state q with heq | ⟨-, heq⟩ <;> rw [seenProc_of_state (by simp [heq, hq]), heq]
        · simp [hq]
        · simp
      simp [hstate, hstate']
    · obtain ⟨hplace', hstate'⟩ := hsame q hq
      have hseen : (l'.seenProc q).state = (l.seenProc q).state := by
        unfold seenProc
        rw [hplace', hstate']
        split
        next => rfl
        next => exact hstate'
      rw [hseen]
      refine ⟨Iff.rfl, fun hrunnable => ?_⟩
      have hqp : q ≠ p := by
        rintro rfl
        rw [seenProc_of_place (by simp [hplace]), hrunning] at hrunnable
        cases hrunnable
      rw [seenProc_keeps Proc.tickets fun _ _ => rfl, seenProc_keeps Proc.tickets fun _ _ => rfl,
        hw.tickets q hqp]
  refine ⟨fun d => ?_, fun q => ?_, fun q np stage hfork hstage => ?_, fun q r hq => ?_,
    fun d => (hspot d).draws hlottery (h.draws d)⟩
  · rw [hw.lock, (hspot d).holds]
    exact h.lock d
  · by_cases hq : (l.kernel.proc q).state = .embryo
    · have hoff : ¬ l'.OnCpu q := fun heq => hembryo q hq ((hon q).mp heq)
      refine ⟨fun hstate => ?_, fun _ => ?_, fun hcalling => ?_⟩
      · rcases hw.state q with heq | ⟨-, heq⟩ <;> simp [heq, hq] at hstate
      · rcases hw.state q with heq | ⟨-, heq⟩ <;> simp [heq, hq, hoff]
      · rcases hw.place q with heq | ⟨-, heq⟩
        · exact absurd ((h.slots q).calling (heq ▸ hcalling)).1 (hembryo q hq)
        · rw [heq] at hcalling
          cases hcalling
    · exact (h.slots q).congr (hsame q hq).2 (hsame q hq).1 (hon q)
  · by_cases hqp : q = p
    · exact hw.child np stage (hqp ▸ hfork) hstage
    · rw [hw.forking q hqp] at hfork
      have hnp := h.child q np stage hfork hstage
      rcases hw.place np with heq | ⟨-, heq⟩
      · rw [heq, hnp]
      · exact heq
  · rcases hw.place q with heq | ⟨-, heq⟩
    · rw [heq] at hq
      have hqp : q ≠ p := by
        rintro rfl
        simp [hplace] at hq
      exact admits_congr (hw.forking q hqp) (fun heq => hw.initproc ▸ heq) (h.admits q r hq)
    · simp [heq] at hq

/-- A write to a slot that no thread behind `sched` has is seen as it is. -/
theorem atomic_setProc {i : Fin nproc} {slot : Proc nproc}
    (h : l.place i ≠ .returning ∨ slot.state ≠ .running) :
    (l.setKernel (l.kernel.setProc i slot)).atomic = l.atomic.setProc i slot := by
  refine atomic_eq (fun q => ?_) (fun d => rfl) rfl rfl
  rw [State.setProc_proc]
  by_cases hq : q = i
  · subst hq
    rw [if_pos rfl]
    refine (if_neg ?_).trans ?_
    · rintro ⟨hstate, hplace⟩
      simp only [setKernel_kernel, State.setProc_proc, if_true] at hstate
      exact h.elim (fun hne => hne hplace) (fun hne => hne hstate)
    · simp
  · simp [seenProc, hq]

theorem seen_of_free {c : Fin ncpu} {p : Fin nproc} (hfree : l.freeOn c = some p) :
    l.seenCpu c = some p ∧ l.seenProc p = l.kernel.proc p := by
  obtain ⟨hc, hp⟩ := freeOn_eq_some.mp hfree
  exact ⟨seenCpu_eq_some.mpr ⟨hc, by simp [hp], by simp [hp]⟩, seenProc_of_place (by simp [hp])⟩

/-- The slot of a `fork` in progress is an EMBRYO. -/
theorem embryo_of_fork (hk : l.atomic.Consistent) {p np : Fin nproc} {stage : ForkStage}
    (hfork : (l.kernel.proc p).forking = some (np, stage)) :
    (l.kernel.proc np).state = .embryo := by
  have hnp := hk.embryo_of_forking p np stage
    ((seenProc_keeps Proc.forking (fun _ _ => rfl) p).trans hfork)
  rw [atomic_proc, seenProc] at hnp
  split at hnp
  next => cases hnp
  next => exact hnp

theorem setPlace_self (q : Fin nproc) : l.setPlace q (l.place q) = l :=
  congrArg (fun place => LockState.mk l.kernel place l.mode l.lock) (Function.update_eq_self q _)

/-- What the thread of `p` does in `fork` outside the critical sections. -/
theorem Coherent.fork_write (h : l.Coherent) (hk : l.atomic.Consistent) {c : Fin ncpu}
    {p np : Fin nproc} {stage : ForkStage} (hfree : l.freeOn c = some p)
    (hfork : (l.kernel.proc p).forking = some (np, stage)) (slot : Proc nproc)
    (stage' : Option (Fin nproc × ForkStage)) (place : Place nproc)
    (hstate : slot.state = .embryo ∨ slot.state = .unused)
    (htickets : slot.tickets = (l.kernel.proc np).tickets)
    (hforking : slot.forking = (l.kernel.proc np).forking)
    (hplace : place = l.place np ∨ place = .returning)
    (hchild : ∀ np' stage, stage' = some (np', stage) → np' = np ∧ place = .returning) :
    ((l.setKernel ((l.kernel.setProc np slot).setForking p stage')).setPlace np place).Coherent ∧
      ((l.setKernel ((l.kernel.setProc np slot).setForking p stage')).setPlace np place).atomic =
        (l.atomic.setProc np slot).setForking p stage' := by
  obtain ⟨⟨w, hc⟩, hp⟩ := freeOn_eq_some.mp hfree
  have hrunning := h.running_of_mode hk hc (by simp [hp])
  have hseen := (seen_of_free hfree).2
  have hembryo := embryo_of_fork hk hfork
  have hne : p ≠ np := by
    rintro rfl
    rw [hrunning] at hembryo
    cases hembryo
  constructor
  · refine h.openWrite hk hfree ⟨rfl, rfl, rfl, fun q => ?_, fun q => ?_, fun q hqp => ?_,
      fun q hqp => ?_, fun np' stage hfork' _ => ?_⟩
    · by_cases hq : q = np
      · rw [setPlace_place, if_pos hq, hq]
        exact hplace.imp id fun heq => ⟨hembryo, heq⟩
      · simp [hq]
    · by_cases hq : q = np
      · rcases hstate with heq | heq <;> simp [hq, heq, hembryo]
      · simp [hq]
    · by_cases hq : q = np <;> simp [State.setForking, hq, hne.symm, htickets, hqp]
    · by_cases hq : q = np <;> simp [State.setForking, hq, hne.symm, hforking, hqp]
    · simp only [setPlace_kernel, setKernel_kernel, State.setForking_forking, if_true] at hfork'
      obtain ⟨rfl, hreturning⟩ := hchild np' stage hfork'
      simp [hreturning]
  · have hoff := h.not_onCpu hk (.inl hembryo)
    have hnot : slot.state ≠ .running := by rcases hstate with heq | heq <;> simp [heq]
    have hwrite : (l.setKernel ((l.kernel.setProc np slot).setForking p stage')).atomic =
        (l.atomic.setProc np slot).setForking p stage' := by
      refine (atomic_setProc (l := l.setKernel (l.kernel.setProc np slot)) (.inl ?_)).trans ?_
      · simp [hp]
      · rw [atomic_setProc (.inr hnot), State.setForking]
        simp [hne, hseen]
    rw [← hwrite]
    refine atomic_eq (fun q => ?_) (fun d => ?_) rfl rfl
    · by_cases hq : q = np
      · subst hq
        rw [seenProc_of_state (by simpa using hnot), atomic_proc,
          seenProc_of_state (by simpa using hnot)]
        rfl
      · simp [seenProc, hq]
    · refine SameSpot.seenCpu ⟨rfl, fun w' q hd => ?_⟩
      have hq : q ≠ np := by
        rintro rfl
        exact hoff ⟨d, w', hd⟩
      simp [hq]

/-- A failed `fork` gives its slot back. -/
theorem Coherent.abort_step (h : l.Coherent) (hk : l.atomic.Consistent) {c : Fin ncpu}
    {p np : Fin nproc} {stage : ForkStage} (hfree : l.freeOn c = some p)
    (hfork : (l.kernel.proc p).forking = some (np, stage)) {events : List (Event nproc)}
    (a : Action nproc ncpu) (hstep : l.atomic.step a = some (l.atomic.abortFork p np, events)) :
    Simulated l (l.setKernel (l.kernel.abortFork p np), events) := by
  obtain ⟨hcoherent, hatomic⟩ := h.fork_write hk hfree hfork
    { l.kernel.proc np with state := .unused } none (l.place np)
    (.inr rfl) rfl rfl (.inl rfl) (by simp)
  rw [show l.place np = (l.setKernel ((l.kernel.setProc np
    { l.kernel.proc np with state := .unused }).setForking p none)).place np from rfl,
    setPlace_self] at hcoherent hatomic
  have hnp : l.seenProc np = l.kernel.proc np :=
    seenProc_of_state (by simp [embryo_of_fork hk hfork])
  refine ⟨hcoherent, .inr ⟨a, ?_⟩⟩
  rw [hstep, State.abortFork, State.abortFork, hatomic, atomic_proc, hnp]

theorem Coherent.settickets (h : l.Coherent) (hk : l.atomic.Consistent) {c : Fin ncpu}
    {p : Fin nproc} (hfree : l.freeOn c = some p)
    (hfork : (l.kernel.proc p).forking = none) (tix : Int) :
    (l.setKernel (l.kernel.setProc p { l.kernel.proc p with tickets := tix })).Coherent ∧
      (l.setKernel (l.kernel.setProc p { l.kernel.proc p with tickets := tix })).atomic =
        l.atomic.setProc p { l.kernel.proc p with tickets := tix } := by
  obtain ⟨-, hp⟩ := freeOn_eq_some.mp hfree
  refine ⟨?_, atomic_setProc (.inl (by simp [hp]))⟩
  refine h.openWrite hk hfree ⟨rfl, rfl, rfl, fun q => .inl rfl, fun q => .inl ?_, fun q hqp => ?_,
    fun q hqp => ?_, fun np stage hfork' => ?_⟩
  · exact State.setProc_keeps _ Proc.state (by rfl) q
  · simp [hqp]
  · simp [hqp]
  · simp [hfork] at hfork'

/-- With the lock free the table is seen as it is. -/
theorem Coherent.seenProc_of_unlocked (h : l.Coherent) (hlock : l.lock = none) :
    l.seenProc = l.kernel.proc := by
  funext q
  refine if_neg fun hq => ?_
  obtain ⟨d, w, hd⟩ := ((h.slots q).returning hq.2).mp hq.1
  have hholds := (h.lock d).mpr (by simp [Holds, hd, hq.2, Place.Locked])
  rw [hlock] at hholds
  cases hholds

theorem Coherent.userinit (h : l.Coherent) (hk : l.atomic.Consistent) (hlock : l.lock = none)
    (hinit : l.kernel.initproc = none) {i : Fin nproc} (hi : findUnused l.kernel.proc = some i) :
    Simulated l ((l.setKernel (l.kernel.startInit i)).setPlace i .returning,
      [.alloc i l.kernel.nextpid]) := by
  have hunused := findUnused_some hi
  have hoff := h.not_onCpu hk (.inr hunused)
  have hother : ∀ q, q ≠ i → (l.kernel.startInit i).proc q = l.kernel.proc q := by
    intro q hq
    simp [State.startInit, State.allocSlot, hq]
  have hforking : ∀ q, ((l.kernel.startInit i).proc q).forking = (l.kernel.proc q).forking := by
    intro q
    by_cases hq : q = i
    · simp [State.startInit, State.allocSlot, hq]
    · rw [hother q hq]
  have hstate : ((l.kernel.startInit i).proc i).state = .runnable := by simp [State.startInit]
  have hspot : ∀ d, SameSpot l ((l.setKernel (l.kernel.startInit i)).setPlace i .returning) d := by
    intro d
    refine ⟨rfl, fun w q hd => ?_⟩
    have hq : q ≠ i := by
      rintro rfl
      exact hoff ⟨d, w, hd⟩
    simp [hq]
  have hcoherent : ((l.setKernel (l.kernel.startInit i)).setPlace i .returning).Coherent := by
    refine ⟨fun d => ?_, fun q => ?_, fun q np stage hfork hstage => ?_, fun q r hq => ?_,
      fun d => draws_of_not_holds fun hd => ?_⟩
    · rw [(hspot d).holds]
      exact h.lock d
    · by_cases hq : q = i
      · subst hq
        exact ⟨by simp, fun _ => ⟨fun heq => by simp [hstate] at heq, fun hon => absurd hon hoff⟩,
          by simp⟩
      · exact (h.slots q).congr (congrArg Proc.state (hother q hq)) (by simp [hq]) Iff.rfl
    · have hnp := h.child q np stage ((hforking q).symm.trans hfork) hstage
      by_cases hq : np = i <;> simp [hq, hnp]
    · by_cases hqi : q = i
      · simp [hqi] at hq
      · refine admits_congr (hforking q) (fun heq => absurd (Option.some.inj heq) (Ne.symm hqi))
          (h.admits q r ?_)
        simpa [hqi] using hq
    · rw [(hspot d).holds, ← h.lock, hlock] at hd
      cases hd
  refine ⟨hcoherent, .inr ⟨.userinit, ?_⟩⟩
  have hseen := h.seenProc_of_unlocked hlock
  have hatomic : ((l.setKernel (l.kernel.startInit i)).setPlace i .returning).atomic =
      l.atomic.startInit i := by
    refine atomic_eq (fun q => ?_) (fun d => (hspot d).seenCpu) rfl rfl
    rw [hcoherent.seenProc_of_unlocked hlock]
    simp [State.startInit, State.allocSlot, hseen]
  simp [State.step, hinit, hseen, hi, hatomic]

/-! ## Every step -/

theorem Simulated.silent {l' : LockState nproc ncpu}
    (h : l'.Coherent ∧ l'.atomic = l.atomic) : Simulated l (l', []) :=
  ⟨h.1, .inl ⟨h.2, rfl⟩⟩

theorem Coherent.thread_step (h : l.Coherent) (hk : l.atomic.Consistent) {c : Fin ncpu}
    {p : Fin nproc} {w : Int} (hc : l.mode c = .running w p)
    {r : LockState nproc ncpu × List (Event nproc)} (hr : l.threadStep c p = some r) :
    Simulated l r := by
  unfold threadStep at hr
  cases hplace : l.place p with
  | free => simp [hplace] at hr
  | acquiring request =>
      simp only [hplace, Option.ite_none_right_eq_some] at hr
      obtain ⟨hlock, hr⟩ := hr
      cases hr
      refine Simulated.silent (h.move hk hc rfl rfl (setPlace_place _ p · _)
        (.acquire hlock rfl (by simp [Holds, hc, Place.Locked])) (by simp [hplace]) (by simp) ?_)
      intro request' hrequest
      simp only [reduceCtorEq, Place.holding.injEq, false_or] at hrequest
      exact hrequest ▸ h.admits p request (.inl hplace)
  | holding request =>
      simp only [hplace] at hr
      exact h.section_step hk hc hplace hr
  | calling =>
      simp only [hplace, Option.ite_none_right_eq_some] at hr
      cases hr.2
      exact Simulated.silent (h.switchOut hk hc hplace)
  | returning =>
      simp only [hplace, Option.some.injEq] at hr
      exact hr ▸ h.resume_step hk hc hplace
  | releasing =>
      simp only [hplace, Option.some.injEq] at hr
      subst hr
      exact Simulated.silent (h.move hk hc rfl rfl (setPlace_place _ p · _)
        (.release (by simp [Holds, hc, hplace, Place.Locked]) rfl
          (by simp [Holds, hc, Place.Locked])) (by simp [hplace]) (by simp) (by simp))

/-- A step of the scheduler of CPU `c` from one mode to another. -/
theorem Coherent.setMode (h : l.Coherent) {c : Fin ncpu} {mode : Mode nproc}
    {lock : Option (Fin ncpu)} {k : State nproc ncpu} (hproc : k.proc = l.kernel.proc)
    (hinit : k.initproc = l.kernel.initproc) (hnext : k.nextpid = l.kernel.nextpid)
    (hold : ∀ w p, l.mode c ≠ .running w p) (hnew : ∀ w p, mode ≠ .running w p)
    (hpass : Pass l.lock lock l.Holds
      (((l.setKernel k).setLock lock).setMode c mode).Holds c)
    (hdraws : (((l.setKernel k).setLock lock).setMode c mode).Draws c) :
    Simulated l (((l.setKernel k).setLock lock).setMode c mode, []) := by
  apply Simulated.silent
  exact h.schedule (fun d hdc => by simp [hdc]) rfl hproc hinit hnext hpass hold
    (by simpa using hnew) hdraws

theorem Coherent.cpu_step (h : l.Coherent) (hk : l.atomic.Consistent) {c : Fin ncpu}
    {winner : Int} {r : LockState nproc ncpu × List (Event nproc)}
    (hr : l.cpuStep c winner = some r) : Simulated l r := by
  unfold cpuStep at hr
  cases hc : l.mode c with
  | idle =>
      simp only [hc, Option.ite_none_right_eq_some] at hr
      obtain ⟨hlock, hr⟩ := hr
      cases hr
      exact h.setMode (k := l.kernel) rfl rfl rfl (by simp [hc]) (by simp)
        (.acquire hlock rfl (by simp [Holds])) (by simp [Draws, numTickets])
  | summing rest num =>
      have hdraws := h.draws c
      have hholds : l.Holds c := by simp [Holds, hc]
      have hseen := h.seenProc_eq hholds (by simp [hc])
      simp only [Draws, hc] at hdraws
      cases rest with
      | nil =>
          simp only [hc, Option.some.injEq] at hr
          subst hr
          exact h.setMode (k := l.kernel) rfl rfl rfl (by simp [hc]) (by simp)
            (.keep rfl (by simp [Holds, hc])) (by simp [Draws, pick])
      | cons p rest =>
          simp only [hc, Option.some.injEq] at hr
          subst hr
          refine h.setMode (k := l.kernel) rfl rfl rfl (by simp [hc]) (by simp)
            (.keep rfl (by simp [Holds, hc])) ?_
          simp only [Draws, setMode_mode, if_true]
          refine Eq.trans ?_ hdraws
          rw [sumLoop, hseen]
          split
          next => rw [← hseen]; rfl
          next => rw [← hseen]; rfl
  | picking w rest counter =>
      have hdraws := h.draws c
      have hholds : l.Holds c := by simp [Holds, hc]
      have hseen := h.seenProc_eq hholds (by simp [hc])
      simp only [Draws, hc] at hdraws
      cases rest with
      | nil =>
          simp only [hc, Option.some.injEq] at hr
          subst hr
          exact h.setMode (k := l.kernel) rfl rfl rfl (by simp [hc]) (by simp)
            (.keep rfl (by simp [Holds, hc])) (by simp [Draws])
      | cons p rest =>
          rw [pickLoop, hseen] at hdraws
          simp only [hc] at hr
          have hmode : ∀ {mode : Mode nproc}, (∀ w p, mode ≠ .running w p) →
              (l.setMode c mode).Holds c → (l.setMode c mode).Draws c →
                Simulated l (l.setMode c mode, []) := fun hnew hc' hdraws' =>
            h.setMode (k := l.kernel) rfl rfl rfl (by simp [hc]) hnew
              (.keep rfl (iff_of_true hc' hholds)) hdraws'
          split at hr
          next hstate =>
            cases hr
            rw [if_pos hstate] at hdraws
            refine hmode (by simp) (by simp [Holds]) ?_
            simp only [Draws, setMode_mode, if_true]
            exact hseen ▸ hdraws
          next hstate =>
            rw [if_neg hstate] at hdraws
            split at hr
            next hlt =>
              cases hr
              simp only [if_pos hlt] at hdraws
              refine hmode (by simp) (by simp [Holds]) ?_
              simp only [Draws, setMode_mode, if_true]
              exact hseen ▸ hdraws
            next hlt =>
              cases hr
              simp only [if_neg hlt] at hdraws
              refine hmode (by simp) (by simp [Holds]) ?_
              simp only [Draws, setMode_mode, if_true]
              exact hseen ▸ hdraws.symm
  | switching w p =>
      simp only [hc, Option.some.injEq] at hr
      subst hr
      exact .silent (h.switchIn hc)
  | running w p =>
      simp only [hc] at hr
      exact h.thread_step hk hc hr
  | switched =>
      simp only [hc, Option.some.injEq] at hr
      subst hr
      exact h.setMode (k := l.kernel.setCpu c none) rfl rfl rfl (by simp [hc]) (by simp)
        (.keep rfl (by simp [Holds, hc])) (by simp [Draws])
  | releasing =>
      simp only [hc, Option.some.injEq] at hr
      subst hr
      exact h.setMode (k := l.kernel) rfl rfl rfl (by simp [hc]) (by simp)
        (.release (by simp [Holds, hc]) rfl (by simp [Holds])) (by simp [Draws])
  | acquiring chan =>
      simp only [hc, Option.ite_none_right_eq_some] at hr
      obtain ⟨hlock, hr⟩ := hr
      cases hr
      exact h.setMode (k := l.kernel) rfl rfl rfl (by simp [hc]) (by simp)
        (.acquire hlock rfl (by simp [Holds])) (by simp [Draws])
  | waking chan =>
      simp only [hc, Option.some.injEq] at hr
      exact hr ▸ h.wake_step hc

theorem Coherent.step (h : l.Coherent) (hk : l.atomic.Consistent) {a : LockAction nproc ncpu}
    {r : LockState nproc ncpu × List (Event nproc)} (hr : l.step a = some r) : Simulated l r := by
  cases a with
  | userinit =>
      simp only [LockState.step, Option.ite_none_right_eq_some, Option.map_eq_some_iff] at hr
      obtain ⟨⟨hlock, hinit⟩, i, hi, rfl⟩ := hr
      exact h.userinit hk hlock hinit hi
  | call c request =>
      obtain ⟨p, hfree, hr⟩ := Option.bind_eq_some_iff.mp hr
      obtain ⟨⟨w, hc⟩, hp⟩ := freeOn_eq_some.mp hfree
      simp only [Option.ite_none_right_eq_some] at hr
      obtain ⟨hadmits, hr⟩ := hr
      cases hr
      apply Simulated.silent
      exact h.move hk hc rfl rfl (fun q => l.setPlace_place p q (.acquiring request))
        (.keep rfl (by simp [Holds, hc, hp, Place.Locked])) (by simp [hp]) (by simp)
        (by simpa using hadmits)
  | forkKalloc c ok =>
      obtain ⟨p, hfree, hr⟩ := Option.bind_eq_some_iff.mp hr
      obtain ⟨hcpu, hseen⟩ := seen_of_free hfree
      split at hr
      next np hfork =>
        have hnp : l.seenProc np = l.kernel.proc np :=
          seenProc_of_state (by simp [embryo_of_fork hk hfork])
        split at hr
        next hok =>
          cases hr
          obtain ⟨hcoherent, hatomic⟩ := h.fork_write hk hfree hfork
            { l.kernel.proc np with context := .forkret } (some (np, .kstack)) .returning
            (.inl (embryo_of_fork hk hfork))
            rfl rfl (.inr rfl) (by simp +contextual)
          refine ⟨hcoherent, .inr ⟨.forkKalloc c ok, ?_⟩⟩
          rw [hatomic]
          simp [State.step, State.forkingAt, hcpu, hseen, hfork, hok, hnp]
        next hok =>
          cases hr
          refine h.abort_step hk hfree hfork (.forkKalloc c ok) ?_
          simp [State.step, State.forkingAt, hcpu, hseen, hfork, hok]
      next => cases hr
  | forkCopy c ok =>
      obtain ⟨p, hfree, hr⟩ := Option.bind_eq_some_iff.mp hr
      obtain ⟨hcpu, hseen⟩ := seen_of_free hfree
      split at hr
      next np hfork =>
        have hnp : l.seenProc np = l.kernel.proc np :=
          seenProc_of_state (by simp [embryo_of_fork hk hfork])
        split at hr
        next hok =>
          cases hr
          obtain ⟨hcoherent, hatomic⟩ := h.fork_write hk hfree hfork
            { l.kernel.proc np with parent := some p } (some (np, .copied)) .returning
            (.inl (embryo_of_fork hk hfork))
            rfl rfl (.inr rfl) (by simp +contextual)
          rw [← h.child p np .kstack hfork (by simp),
            show l.place np = (l.setKernel ((l.kernel.setProc np { l.kernel.proc np with
              parent := some p }).setForking p (some (np, .copied)))).place np from rfl,
            setPlace_self] at hcoherent hatomic
          refine ⟨hcoherent, .inr ⟨.forkCopy c ok, ?_⟩⟩
          rw [hatomic]
          simp [State.step, State.forkingAt, hcpu, hseen, hfork, hok, hnp]
        next hok =>
          cases hr
          refine h.abort_step hk hfree hfork (.forkCopy c ok) ?_
          simp [State.step, State.forkingAt, hcpu, hseen, hfork, hok]
      next => cases hr
  | settickets c tix =>
      obtain ⟨p, hfree, hr⟩ := Option.bind_eq_some_iff.mp hr
      simp only [Option.ite_none_right_eq_some] at hr
      obtain ⟨hfork, hr⟩ := hr
      cases hr
      obtain ⟨hcpu, hseen⟩ := seen_of_free hfree
      obtain ⟨hcoherent, hatomic⟩ := h.settickets hk hfree hfork tix
      refine ⟨hcoherent, .inr ⟨.settickets c tix, ?_⟩⟩
      rw [hatomic]
      simp [State.step, State.caller, hcpu, hseen, hfork]
  | interrupt c chan =>
      simp only [LockState.step, Option.ite_none_right_eq_some] at hr
      obtain ⟨hc, hr⟩ := hr
      cases hr
      exact h.setMode (k := l.kernel) rfl rfl rfl (by simp [hc]) (by simp)
        (.keep rfl (by simp [Holds, hc])) (by simp [Draws])
  | cpu c winner => exact h.cpu_step hk hr

theorem boot_coherent : (LockState.boot nproc ncpu).Coherent := by
  refine ⟨fun c => ?_, fun q => ⟨?_, ?_, ?_⟩, ?_, ?_, fun c => ?_⟩
  · simp [boot, Holds]
  · simp [boot, State.boot, Proc.zero]
  · simp [boot]
  · simp [boot]
  · simp [boot, State.boot, Proc.zero]
  · simp [boot]
  · simp [boot, Draws]

/-! ## The variable `proc` -/

end LockState

/-- The process whose thread a CPU executes. -/
def Mode.thread : Mode nproc → Option (Fin nproc)
  | .running _ p => some p
  | _ => none

/-- The variable `proc` of each CPU names its thread, but for the moment when the
scheduler has just come back from `swtch`. -/
def LockState.ProcSet (l : LockState nproc ncpu) : Prop :=
  ∀ c, l.mode c ≠ .switched → l.kernel.cpu c = (l.mode c).thread

namespace LockState

variable {l : LockState nproc ncpu}

theorem waitLoop_frame (p : Fin nproc) (k : State nproc ncpu) (events : List (Event nproc)) :
    (l.waitLoop p k events).1.mode = l.mode ∧ (l.waitLoop p k events).1.kernel.cpu = k.cpu := by
  unfold waitLoop
  split
  next => exact ⟨rfl, rfl⟩
  next => split <;> exact ⟨rfl, rfl⟩

/-- A critical section of a process stays on its CPU. -/
theorem section_frame {c : Fin ncpu} {p : Fin nproc} {request : Request nproc}
    {r : LockState nproc ncpu × List (Event nproc)} (hr : l.section_ c p request = some r) :
    r.1.mode = l.mode ∧ r.1.kernel.cpu = l.kernel.cpu := by
  cases request with
  | forkAlloc =>
      simp only [section_] at hr
      split at hr <;> cases hr <;> exact ⟨rfl, rfl⟩
  | forkFinish =>
      simp only [section_] at hr
      split at hr
      next =>
        cases hr
        exact ⟨rfl, rfl⟩
      next => cases hr
  | wait =>
      cases hr
      exact l.waitLoop_frame p l.kernel []
  | kill pid =>
      simp only [section_] at hr
      split at hr <;> cases hr <;> exact ⟨rfl, rfl⟩
  | exit =>
      cases hr
      exact ⟨rfl, rfl⟩
  | sleep chan =>
      cases hr
      exact ⟨rfl, rfl⟩
  | wakeup chan =>
      cases hr
      exact ⟨rfl, rfl⟩
  | yield =>
      cases hr
      exact ⟨rfl, rfl⟩

theorem resume_frame (p : Fin nproc) :
    (l.resume p).1.mode = l.mode ∧ (l.resume p).1.kernel.cpu = l.kernel.cpu := by
  unfold resume
  split
  · exact ⟨rfl, rfl⟩
  · exact ⟨rfl, rfl⟩
  · exact ⟨rfl, rfl⟩
  · exact l.waitLoop_frame p _ _

namespace ProcSet

variable (h : l.ProcSet)
include h

theorem frame {l' : LockState nproc ncpu} (hmode : l'.mode = l.mode)
    (hcpu : l'.kernel.cpu = l.kernel.cpu) : l'.ProcSet := by
  intro c
  rw [hmode, hcpu]
  exact h c

/-- CPU `c` goes on to another mode, and sets its variable. -/
theorem setMode {l' : LockState nproc ncpu} {c : Fin ncpu}
    (hothers : ∀ d, d ≠ c → l'.mode d = l.mode d ∧ l'.kernel.cpu d = l.kernel.cpu d)
    (hc : l'.mode c ≠ .switched → l'.kernel.cpu c = (l'.mode c).thread) : l'.ProcSet := by
  intro d hd
  by_cases hdc : d = c
  · subst hdc
    exact hc hd
  · obtain ⟨hmode, hcpu⟩ := hothers d hdc
    rw [hmode] at hd ⊢
    rw [hcpu]
    exact h d hd

theorem thread_step {c : Fin ncpu} {p : Fin nproc} {r : LockState nproc ncpu × List (Event nproc)}
    (hr : l.threadStep c p = some r) : r.1.ProcSet := by
  unfold threadStep at hr
  split at hr
  next => cases hr
  next =>
    obtain ⟨-, hr⟩ := Option.ite_none_right_eq_some.mp hr
    cases hr
    exact h.frame rfl rfl
  next =>
    obtain ⟨hmode, hcpu⟩ := section_frame hr
    exact h.frame hmode hcpu
  next =>
    obtain ⟨-, hr⟩ := Option.ite_none_right_eq_some.mp hr
    cases hr
    exact h.setMode (c := c) (fun d hdc => by simp [hdc]) (by simp)
  next =>
    cases hr
    obtain ⟨hmode, hcpu⟩ := l.resume_frame p
    exact h.frame hmode hcpu
  next =>
    cases hr
    exact h.frame rfl rfl

theorem cpu_step {c : Fin ncpu} {winner : Int} {r : LockState nproc ncpu × List (Event nproc)}
    (hr : l.cpuStep c winner = some r) : r.1.ProcSet := by
  -- in all modes but those around a switch the variable is 0 and stays 0
  have hidle : ∀ {l' : LockState nproc ncpu}, l.mode c ≠ .switched →
      (l.mode c).thread = none → (∀ d, d ≠ c → l'.mode d = l.mode d) →
        (l'.mode c).thread = none → l'.kernel.cpu = l.kernel.cpu → l'.ProcSet := by
    intro l' hold hnone hothers hnone' hcpu
    refine h.setMode (fun d hdc => ⟨hothers d hdc, by rw [hcpu]⟩) fun _ => ?_
    rw [hcpu, h c hold, hnone, hnone']
  have hset : ∀ {mode : Mode nproc}, l.mode c ≠ .switched → (l.mode c).thread = none →
      mode.thread = none → (l.setMode c mode).ProcSet := by
    intro mode hold hnone hnone'
    exact hidle hold hnone (fun d hdc => by simp [hdc]) (by simpa using hnone') rfl
  unfold cpuStep at hr
  cases hc : l.mode c with
  | running w p =>
      simp only [hc] at hr
      exact h.thread_step hr
  | switching w p =>
      simp only [hc, Option.some.injEq] at hr
      subst hr
      exact h.setMode (c := c) (fun d hdc => by simp [hdc, State.dispatch])
        (by simp [State.dispatch, Mode.thread])
  | switched =>
      simp only [hc, Option.some.injEq] at hr
      subst hr
      exact h.setMode (c := c) (fun d hdc => by simp [hdc]) (by simp [Mode.thread])
  | idle =>
      simp only [hc, Option.ite_none_right_eq_some] at hr
      cases hr.2
      exact hidle (by simp [hc]) (by simp [hc, Mode.thread]) (fun d hdc => by simp [hdc])
        (by simp [Mode.thread]) rfl
  | summing rest num =>
      cases rest with
      | nil =>
          simp only [hc, Option.some.injEq] at hr
          subst hr
          exact hset (by simp [hc]) (by simp [hc, Mode.thread]) rfl
      | cons p rest =>
          simp only [hc, Option.some.injEq] at hr
          subst hr
          exact hset (by simp [hc]) (by simp [hc, Mode.thread]) rfl
  | picking w rest counter =>
      cases rest with
      | nil =>
          simp only [hc, Option.some.injEq] at hr
          subst hr
          exact hset (by simp [hc]) (by simp [hc, Mode.thread]) rfl
      | cons p rest =>
          simp only [hc] at hr
          split at hr
          next =>
            cases hr
            exact hset (by simp [hc]) (by simp [hc, Mode.thread]) rfl
          next =>
            split at hr <;> cases hr <;> exact hset (by simp [hc]) (by simp [hc, Mode.thread]) rfl
  | releasing =>
      simp only [hc, Option.some.injEq] at hr
      subst hr
      exact hidle (by simp [hc]) (by simp [hc, Mode.thread]) (fun d hdc => by simp [hdc])
        (by simp [Mode.thread]) rfl
  | acquiring chan =>
      simp only [hc, Option.ite_none_right_eq_some] at hr
      cases hr.2
      exact hidle (by simp [hc]) (by simp [hc, Mode.thread]) (fun d hdc => by simp [hdc])
        (by simp [Mode.thread]) rfl
  | waking chan =>
      simp only [hc, Option.some.injEq] at hr
      subst hr
      exact hidle (by simp [hc]) (by simp [hc, Mode.thread]) (fun d hdc => by simp [hdc])
        (by simp [Mode.thread]) rfl

theorem step {a : LockAction nproc ncpu} {r : LockState nproc ncpu × List (Event nproc)}
    (hr : l.step a = some r) : r.1.ProcSet := by
  cases a with
  | userinit =>
      simp only [LockState.step, Option.ite_none_right_eq_some, Option.map_eq_some_iff] at hr
      obtain ⟨-, i, -, rfl⟩ := hr
      exact h.frame rfl rfl
  | call c request =>
      obtain ⟨p, -, hr⟩ := Option.bind_eq_some_iff.mp hr
      obtain ⟨-, hr⟩ := Option.ite_none_right_eq_some.mp hr
      cases hr
      exact h.frame rfl rfl
  | forkKalloc c ok =>
      obtain ⟨p, -, hr⟩ := Option.bind_eq_some_iff.mp hr
      split at hr
      next =>
        split at hr <;> cases hr <;> exact h.frame rfl rfl
      next => cases hr
  | forkCopy c ok =>
      obtain ⟨p, -, hr⟩ := Option.bind_eq_some_iff.mp hr
      split at hr
      next =>
        split at hr <;> cases hr <;> exact h.frame rfl rfl
      next => cases hr
  | settickets c tix =>
      obtain ⟨p, -, hr⟩ := Option.bind_eq_some_iff.mp hr
      obtain ⟨-, hr⟩ := Option.ite_none_right_eq_some.mp hr
      cases hr
      exact h.frame rfl rfl
  | interrupt c chan =>
      simp only [LockState.step, Option.ite_none_right_eq_some] at hr
      obtain ⟨hc, hr⟩ := hr
      cases hr
      refine h.setMode (c := c) (fun d hdc => by simp [hdc]) fun _ => ?_
      simpa [hc, Mode.thread] using h c (by simp [hc])
  | cpu c winner => exact h.cpu_step hr

end ProcSet

/-! ## Every run -/

variable {history : List (Event nproc)}

theorem coherent_of_reach (h : Reach LockState.step anyStep (.boot nproc ncpu) history l) :
    l.Coherent ∧ Reach State.step anyStep (.boot nproc ncpu) history l.atomic := by
  induction h with
  | start =>
      refine ⟨boot_coherent, ?_⟩
      have hatomic : (LockState.boot nproc ncpu).atomic = .boot nproc ncpu :=
        atomic_eq (fun q => by simp [seenProc, boot]) (fun c => by simp [seenCpu, boot, State.boot])
          rfl rfl
      rw [hatomic]
      exact .start
  | step _ _ hstep ih =>
      obtain ⟨hcoherent, hreach⟩ := ih
      obtain ⟨hcoherent', hsim⟩ := hcoherent.step (consistent_of_reach hreach) hstep
      refine ⟨hcoherent', ?_⟩
      rcases hsim with ⟨heq, hnone⟩ | ⟨b, hb⟩
      · dsimp only at heq hnone
        rw [heq, hnone, List.append_nil]
        exact hreach
      · exact .step hreach trivial hb

theorem procSet_of_reach (h : Reach LockState.step anyStep (.boot nproc ncpu) history l) :
    l.ProcSet := by
  induction h with
  | start =>
      intro c _
      simp [boot, State.boot, Mode.thread]
  | step _ _ hstep ih => exact ih.step hstep

/-- Nothing tells a run with the lock from a run of the kernel whose critical
sections are single steps: the events are the same, and whenever the lock is
free so is the state. -/
theorem critical_sections_atomic
    (h : Reach LockState.step anyStep (.boot nproc ncpu) history l) :
    Reach State.step anyStep (.boot nproc ncpu) history l.atomic ∧
      (l.lock = none → l.atomic = l.kernel) := by
  obtain ⟨hcoherent, hreach⟩ := coherent_of_reach h
  refine ⟨hreach, fun hlock => ?_⟩
  refine atomic_eq (congrFun (hcoherent.seenProc_of_unlocked hlock)) (fun c => ?_) rfl rfl
  have hfree : ¬ l.Holds c := by
    rw [← hcoherent.lock, hlock]
    simp
  have hset := procSet_of_reach h c
  cases hc : l.mode c with
  | running w p =>
      rw [hset (by simp [hc]), hc]
      refine seenCpu_eq_some.mpr ⟨⟨w, hc⟩, fun hp => hfree ?_, fun hp => hfree ?_⟩ <;>
        simp [Holds, hc, hp, Place.Locked]
  | idle => rw [hset (by simp [hc]), hc]; simp [seenCpu, hc, Mode.thread]
  | acquiring chan => rw [hset (by simp [hc]), hc]; simp [seenCpu, hc, Mode.thread]
  | _ => simp [Holds, hc] at hfree

/-- `initproc` starts on CPU `c` and forks. -/
def forkRun (c : Fin ncpu) : List (LockAction nproc ncpu) :=
  [.userinit] ++ List.replicate 8 (.cpu c 0) ++
    [.call c .forkAlloc, .cpu c 0, .cpu c 0, .cpu c 0, .forkKalloc c true, .forkCopy c true,
      .call c .forkFinish, .cpu c 0, .cpu c 0, .cpu c 0]

/-- It waits for its child, and is about to call `sched`. -/
def waitRun (c : Fin ncpu) : List (LockAction nproc ncpu) :=
  forkRun c ++ [.call c .wait, .cpu c 0, .cpu c 0]

/-- It has given its CPU up. -/
def sleepRun (c : Fin ncpu) : List (LockAction nproc ncpu) :=
  waitRun c ++ [.cpu c 0, .cpu c 0, .cpu c 0]

theorem sleepRun_isSome : (run LockState.step (.boot 2 2) (sleepRun 0)).isSome := by
  decide +kernel

theorem critical_sections_atomic_sleepRun : ∃ history, ∃ k : State 2 2,
    Reach State.step anyStep (.boot 2 2) history k ∧ (k.proc 0).state = .sleeping := by
  have hreach := Reach.of_isSome (sleepRun 0) (admitted_anyStep _ _) sleepRun_isSome
  obtain ⟨hatomic, hunlocked⟩ := critical_sections_atomic hreach
  refine ⟨_, _, hatomic, ?_⟩
  rw [hunlocked (by decide +kernel)]
  decide +kernel

/-- The panics of `acquire`, `release` and `sched` that the lock and the state of
the process can cause do not happen, and no two CPUs execute one thread. -/
theorem lock_discipline (h : Reach LockState.step anyStep (.boot nproc ncpu) history l) :
    (∀ c, l.lock = some c ↔ l.Holds c) ∧
    (∀ c w p, l.mode c = .running w p → l.kernel.cpu c = some p ∧
      (l.place p = .calling → l.SchedReady c p) ∧
      (l.place p ≠ .calling → (l.kernel.proc p).state = .running)) ∧
    ∀ c d w w' p, l.mode c = .running w p → l.mode d = .running w' p → c = d := by
  obtain ⟨hcoherent, hreach⟩ := coherent_of_reach h
  have hk := consistent_of_reach hreach
  refine ⟨hcoherent.lock, fun c w p hc => ⟨?_, fun hp => ⟨?_, ?_⟩, ?_⟩, ?_⟩
  · rw [procSet_of_reach h c (by simp [hc]), hc]
    rfl
  · exact (hcoherent.lock c).mpr (by simp [Holds, hc, hp, Place.Locked])
  · obtain ⟨-, hstate⟩ := (hcoherent.slots p).calling hp
    rcases hstate with heq | heq | heq <;> simp [heq]
  · exact hcoherent.running_of_mode hk hc
  · intro c d w w' p hc hd
    exact hcoherent.apart hk hc hd

theorem waitRun_isSome : (run LockState.step (.boot 2 2) (waitRun 0)).isSome := by
  decide +kernel

theorem lock_discipline_waitRun : ∃ history, ∃ l : LockState 2 2,
    Reach LockState.step anyStep (.boot 2 2) history l ∧ l.place 0 = .calling ∧
      l.SchedReady 0 0 := by
  have hreach := Reach.of_isSome (waitRun 0) (admitted_anyStep _ _) waitRun_isSome
  refine ⟨_, _, hreach, by decide +kernel, ?_⟩
  exact ((lock_discipline hreach).2.1 0 0 0 (by decide +kernel)).2.1 (by decide +kernel)

end LockState

end OsCourse.Kernel
