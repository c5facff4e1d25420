import OsCourse.Kernel.Memory

/-! # No page is lost, shared or freed twice

Which pointers of a slot own memory can be read off the process table: an UNUSED slot
owns nothing, the EMBRYO of a `fork` what the `fork` has come to, any other slot both.
So what was allocated and not freed is what these pointers point to. A process that
has exited stays on its kernel stack until `swtch` has left it; the lock keeps `wait`
from freeing it before.
-/

namespace OsCourse.Kernel

open Ledger Mutex Transition

variable {Page : Type*} {nproc ncpu : Nat}

/-- The stages of `fork` at which the pointer of the new slot owns memory. -/
def Pointer.SetAt : Pointer → ForkStage → Prop
  | .kstack, stage => stage ≠ .allocated
  | .pgdir, stage => stage = .copied

/-- A pointer of a slot owns memory. -/
def State.Has (k : State nproc ncpu) (q : Fin nproc) (f : Pointer) : Prop :=
  (k.proc q).state ≠ .unused ∧
    ∀ p stage, (k.proc p).forking = some (q, stage) → f.SetAt stage

namespace State

variable {k k' : State nproc ncpu}

theorem has_congr (hforking : ∀ q, (k'.proc q).forking = (k.proc q).forking)
    (hstate : ∀ q, (k'.proc q).state = .unused ↔ (k.proc q).state = .unused) (q : Fin nproc)
    (f : Pointer) : k'.Has q f ↔ k.Has q f := by
  simp only [Has, hforking, ne_eq, hstate]

/-- A slot that no `fork` works on owns memory when it is in use. -/
theorem has_of_idle {q : Fin nproc} (hstate : (k.proc q).state ≠ .unused)
    (hidle : ∀ p stage, (k.proc p).forking ≠ some (q, stage)) (f : Pointer) : k.Has q f :=
  ⟨hstate, fun p stage hfork => absurd hfork (hidle p stage)⟩

/-- A change of the slot `np` and of the `fork` of `p`, the only one to work on it. -/
structure AtSlot (k k' : State nproc ncpu) (p np : Fin nproc) : Prop where
  state : ∀ q, q ≠ np → ((k'.proc q).state = .unused ↔ (k.proc q).state = .unused)
  forking : ∀ q, q ≠ p → (k'.proc q).forking = (k.proc q).forking
  old : ∀ q stage, (k.proc p).forking = some (q, stage) → q = np
  new : ∀ q stage, (k'.proc p).forking = some (q, stage) → q = np
  alone : ∀ q stage, q ≠ p → (k.proc q).forking ≠ some (np, stage)

namespace AtSlot

variable {p np : Fin nproc} (h : AtSlot k k' p np)
include h

theorem has_of_ne {q : Fin nproc} (hq : q ≠ np) (f : Pointer) : k'.Has q f ↔ k.Has q f := by
  have hforks : ∀ r stage, (k'.proc r).forking = some (q, stage) ↔
      (k.proc r).forking = some (q, stage) := by
    intro r stage
    by_cases hr : r = p
    · subst hr
      exact ⟨fun heq => absurd (h.new q stage heq) hq, fun heq => absurd (h.old q stage heq) hq⟩
    · rw [h.forking r hr]
  simp only [Has, ne_eq, h.state q hq, hforks]

theorem has_before (f : Pointer) : k.Has np f ↔ (k.proc np).state ≠ .unused ∧
    ∀ stage, (k.proc p).forking = some (np, stage) → f.SetAt stage := by
  refine and_congr_right fun _ => ⟨fun hall => hall p, fun hp q stage hfork => ?_⟩
  by_cases hq : q = p
  · exact hp stage (hq ▸ hfork)
  · exact absurd hfork (h.alone q stage hq)

theorem has_after (f : Pointer) : k'.Has np f ↔ (k'.proc np).state ≠ .unused ∧
    ∀ stage, (k'.proc p).forking = some (np, stage) → f.SetAt stage := by
  refine and_congr_right fun _ => ⟨fun hall => hall p, fun hp q stage hfork => ?_⟩
  by_cases hq : q = p
  · exact hp stage (hq ▸ hfork)
  · rw [h.forking q hq] at hfork
    exact absurd hfork (h.alone q stage hq)

end AtSlot

/-- A step frees what the slot `gone` owns, if there is one, and that is all. -/
structure Frees (k k' : State nproc ncpu) (gone : Option (Fin nproc)) : Prop where
  has : ∀ q f, k'.Has q f ↔ k.Has q f ∧ gone ≠ some q
  owned : ∀ q, gone = some q → ∀ f, k.Has q f

theorem Frees.same (hforking : ∀ q, (k'.proc q).forking = (k.proc q).forking)
    (hstate : ∀ q, (k'.proc q).state = .unused ↔ (k.proc q).state = .unused) :
    Frees k k' none :=
  ⟨fun q f => by simp [has_congr hforking hstate], by simp⟩

theorem Frees.of_proc (h : k'.proc = k.proc) : Frees k k' none :=
  .same (fun q => by rw [h]) fun q => by rw [h]

end State

/-! ## What a step does to the owners -/

namespace LockState

variable {l : LockState nproc ncpu}

/-- The slot of a `fork` owns memory from the stage on that sets its pointer. -/
theorem has_newSlot (hk : l.atomic.Consistent) {p np : Fin nproc} {stage : ForkStage}
    (hfork : (l.kernel.proc p).forking = some (np, stage)) (f : Pointer) :
    l.kernel.Has np f ↔ f.SetAt stage := by
  have hkeeps := seenProc_keeps (l := l) Proc.forking fun _ _ => rfl
  refine ⟨fun h => h.2 p stage hfork, fun h => ⟨?_, fun q stage' hfork' => ?_⟩⟩
  · rw [embryo_of_fork hk hfork]
    simp
  · cases hk.forking_injective q p np stage' stage ((hkeeps q).trans hfork')
      ((hkeeps p).trans hfork)
    cases hfork'.symm.trans hfork
    exact h

/-- A step of `fork` of the process `p`, which has the slot `np`. -/
theorem has_fork (hk : l.atomic.Consistent) {p np : Fin nproc} {stage : ForkStage}
    (hfork : (l.kernel.proc p).forking = some (np, stage)) (slot : Proc nproc)
    (hslot : slot.forking = (l.kernel.proc np).forking)
    {stage' : Option (Fin nproc × ForkStage)}
    (hstage : ∀ q s, stage' = some (q, s) → q = np) (q : Fin nproc) (f : Pointer) :
    ((l.kernel.setProc np slot).setForking p stage').Has q f ↔
      if q = np then slot.state ≠ .unused ∧ ∀ s, stage' = some (np, s) → f.SetAt s
      else l.kernel.Has q f := by
  have hkeeps := seenProc_keeps (l := l) Proc.forking fun _ _ => rfl
  have hslots := l.kernel.setProc_keeps Proc.forking hslot
  have hat : State.AtSlot l.kernel ((l.kernel.setProc np slot).setForking p stage') p np := by
    refine ⟨fun q hq => by simp [hq], fun q hq => ?_, fun q s heq => ?_, fun q s heq => ?_,
      fun q s hq heq => ?_⟩
    · rw [State.setForking_forking, if_neg hq, hslots]
    · cases hfork.symm.trans heq
      rfl
    · exact hstage q s (by simpa using heq)
    · exact hq (hk.forking_injective q p np s stage ((hkeeps q).trans heq)
        ((hkeeps p).trans hfork))
  split
  next heq =>
    subst heq
    rw [hat.has_after]
    simp
  next hq => exact hat.has_of_ne hq f

theorem has_abortFork (hk : l.atomic.Consistent) {p np : Fin nproc} {stage : ForkStage}
    (hfork : (l.kernel.proc p).forking = some (np, stage)) (q : Fin nproc) (f : Pointer) :
    (l.kernel.abortFork p np).Has q f ↔ l.kernel.Has q f ∧ q ≠ np := by
  rw [State.abortFork, has_fork hk hfork { l.kernel.proc np with state := .unused } rfl (by simp)]
  split
  next heq => simp [heq]
  next hq => simp [hq]

/-- A process owns its memory when it is neither UNUSED nor an EMBRYO. -/
theorem has_of_state (hk : l.atomic.Consistent) {q : Fin nproc}
    (hunused : (l.kernel.proc q).state ≠ .unused) (hembryo : (l.kernel.proc q).state ≠ .embryo)
    (f : Pointer) : l.kernel.Has q f :=
  State.has_of_idle hunused (fun _ _ hfork => hembryo (embryo_of_fork hk hfork)) f

/-- A process keeps its memory while it is on a CPU, up to the `swtch` of `sched`. -/
theorem Coherent.has_of_running (h : l.Coherent) (hk : l.atomic.Consistent) {c : Fin ncpu}
    {p : Fin nproc} {w : Int} (hc : l.mode c = .running w p) (f : Pointer) :
    l.kernel.Has p f := by
  have hoff : ∀ state : ProcState, state = .embryo ∨ state = .unused →
      (l.kernel.proc p).state ≠ state := by
    rintro state hstate rfl
    exact h.not_onCpu hk hstate ⟨c, w, hc⟩
  exact has_of_state hk (hoff .unused (.inr rfl)) (hoff .embryo (.inl rfl)) f

/-- The winner of the lottery is RUNNABLE. -/
theorem Coherent.runnable_of_switching (h : l.Coherent) {c : Fin ncpu} {p : Fin nproc} {w : Int}
    (hc : l.mode c = .switching w p) : (l.kernel.proc p).state = .runnable := by
  rw [← h.seenProc_eq (c := c) (by simp [Holds, hc]) (by simp [hc])]
  have hdraws := h.draws c
  simp only [Draws, hc] at hdraws
  exact pick_runnable hdraws

theorem Coherent.has_of_switching (h : l.Coherent) (hk : l.atomic.Consistent) {c : Fin ncpu}
    {p : Fin nproc} {w : Int} (hc : l.mode c = .switching w p) (f : Pointer) :
    l.kernel.Has p f := by
  have hp := h.runnable_of_switching hc
  exact has_of_state hk (by simp [hp]) (by simp [hp]) f

/-- `wait` frees a ZOMBIE, which no `fork` works on. -/
theorem SameStates.frees_reap (hk : l.atomic.Consistent) {k : State nproc ncpu}
    (h : SameStates l k) {i : Fin nproc} (hi : (k.proc i).state = .zombie) :
    State.Frees l.kernel (k.reap i) (some i) := by
  have hforking : ∀ q, ((k.reap i).proc q).forking = (l.kernel.proc q).forking := fun q =>
    (State.setProc_keeps _ Proc.forking (by rfl) q).trans (h.forking q)
  rw [h.state] at hi
  refine ⟨fun q f => ?_, ?_⟩
  · by_cases hq : q = i
    · simp [State.Has, State.reap, hq]
    · have hstate : ((k.reap i).proc q).state = (l.kernel.proc q).state := by
        simp [State.reap, hq, h.state]
      simp [State.Has, hforking, hstate, Ne.symm hq]
  · rintro q ⟨⟩ f
    exact has_of_state hk (by simp [hi]) (by simp [hi]) f

theorem frees_waitLoop (hk : l.atomic.Consistent) {p : Fin nproc}
    (hp : (l.kernel.proc p).state = .running) {k : State nproc ncpu} (hsame : SameStates l k)
    (events : List (Event nproc)) :
    State.Frees l.kernel (l.waitLoop p k events).1.kernel
      (scanChildren k.proc p (List.finRange nproc) false).1 := by
  rcases hscan : scanChildren k.proc p (List.finRange nproc) false with ⟨_ | i, havekids⟩
  · by_cases hfails : (!havekids || (k.proc p).killed) = true
    · simp only [LockState.waitLoop, hscan, hfails, if_true]
      exact .same hsame.forking fun q => by simp [finish, hsame.state]
    · simp only [LockState.waitLoop, hscan, hfails]
      refine .same (fun q => ?_) fun q => ?_
      · exact (State.setProc_keeps _ Proc.forking (by rfl) q).trans (hsame.forking q)
      · by_cases hq : q = p
        · simp [toSched, State.park, hq, hp]
        · simp [toSched, State.park, hq, hsame.state]
  · simp only [LockState.waitLoop, hscan]
    exact hsame.frees_reap hk (scanChildren_some p _ _ (congrArg Prod.fst hscan)).2

theorem frees_wakeup (chan : Chan nproc) :
    State.Frees l.kernel { l.kernel with proc := wakeup1 l.kernel.proc chan } none := by
  refine .same (fun q => by simp [wakeup1_woken]) fun q => ?_
  simp only [wakeup1]
  split
  next hq => simp [hq.1]
  next => rfl

theorem frees_section (h : l.Coherent) (hk : l.atomic.Consistent) {c : Fin ncpu} {p : Fin nproc}
    {w : Int} {request : Request nproc} (hc : l.mode c = .running w p)
    (hplace : l.place p = .holding request) {r : LockState nproc ncpu × List (Event nproc)}
    (hr : l.section_ c p request = some r) :
    State.Frees l.kernel r.1.kernel (l.reaping c) := by
  have hrunning := h.running_of_mode hk hc (by simp [hplace])
  have hadmits := h.admits p request (.inr hplace)
  have hpark : ∀ (state : ProcState) (chan : Chan nproc) (context : Context), state ≠ .unused →
      State.Frees l.kernel (l.kernel.park p state chan context) none := by
    intro state chan context hstate
    refine .same (State.setProc_keeps _ Proc.forking (by rfl)) fun q => ?_
    by_cases hq : q = p
    · simp [State.park, hq, hrunning, hstate]
    · simp [State.park, hq]
  cases request with
  | wait =>
      cases hr
      simpa [reaping, hc, hplace] using frees_waitLoop hk hrunning (.self l) []
  | forkAlloc =>
      simp only [section_] at hr
      split at hr
      next =>
        cases hr
        simpa [reaping, hc, hplace, finish] using State.Frees.of_proc rfl
      next np hfind =>
        cases hr
        have hnp := findUnused_some hfind
        have hat : State.AtSlot l.kernel
            ((l.kernel.allocSlot np).setForking p (some (np, .allocated))) p np := by
          refine ⟨fun q hq => by simp [hq], fun q hq => by simp [hq], fun q s heq => ?_,
            fun q s heq => ?_, fun q s hq heq => ?_⟩
          · cases (show (l.kernel.proc p).forking = none from hadmits).symm.trans heq
          · rw [State.setForking_forking, if_pos rfl] at heq
            cases heq
            rfl
          · rw [embryo_of_fork hk heq] at hnp
            cases hnp
        refine ⟨fun q f => ?_, by simp [reaping, hc, hplace]⟩
        by_cases hq : q = np
        · subst hq
          -- neither pointer is set yet
          rw [finish, setPlace_kernel, setKernel_kernel, hat.has_after, hat.has_before]
          cases f <;> simp [hnp, Pointer.SetAt]
        · simpa [reaping, hc, hplace, finish] using hat.has_of_ne hq f
  | forkFinish =>
      obtain ⟨np, hfork⟩ := hadmits
      simp only [section_, hfork] at hr
      cases hr
      refine ⟨fun q f => ?_, by simp [reaping, hc, hplace]⟩
      rw [finish, setPlace_kernel, setKernel_kernel,
        has_fork hk hfork { l.kernel.proc np with state := .runnable } rfl (by simp)]
      split
      next heq =>
        subst heq
        rw [has_newSlot hk hfork]
        cases f <;> simp [reaping, hc, hplace, Pointer.SetAt]
      next => simp [reaping, hc, hplace]
  | exit =>
      obtain ⟨woken, hwakes, hexit⟩ := l.kernel.exitProc_eq c p
      cases hr
      have hfrees : State.Frees l.kernel
          { l.kernel with proc := (l.kernel.exitProc c p).proc } none := by
        refine .same (fun q => by simp [hexit, State.exitWith]) fun q => ?_
        simp only [hexit, State.exitWith]
        split
        next heq => simp [heq, hrunning]
        next =>
          split
          next hq => simp [hwakes.sleeping q hq]
          next => rfl
      simpa [reaping, hc, hplace, toSched] using hfrees
  | sleep chan =>
      cases hr
      simpa [reaping, hc, hplace, toSched] using hpark .sleeping chan .sleep (by simp)
  | yield =>
      cases hr
      simpa [reaping, hc, hplace, toSched] using hpark .runnable _ .yield (by simp)
  | wakeup chan =>
      cases hr
      simpa [reaping, hc, hplace, finish] using frees_wakeup chan
  | kill pid =>
      simp only [section_] at hr
      split at hr
      next =>
        cases hr
        simpa [reaping, hc, hplace, finish] using State.Frees.of_proc rfl
      next i hfind =>
        cases hr
        have hfrees : State.Frees l.kernel (l.kernel.markKilled i) none := by
          refine .same (State.setProc_keeps _ Proc.forking (by rfl)) fun q => ?_
          by_cases hq : q = i
          · subst hq
            by_cases hsleeping : (l.kernel.proc q).state = .sleeping
            · simp [State.markKilled, hsleeping]
            · simp [State.markKilled, hsleeping]
          · simp [State.markKilled, hq]
        simpa [reaping, hc, hplace, finish] using hfrees

theorem frees_resume (h : l.Coherent) (hk : l.atomic.Consistent) {c : Fin ncpu} {p : Fin nproc}
    {w : Int} (hc : l.mode c = .running w p) (hplace : l.place p = .returning) :
    State.Frees l.kernel (l.resume p).1.kernel (l.reaping c) := by
  have hrunning := h.running_of_mode hk hc (by simp [hplace])
  have hclear := SameStates.clearChan l p
  unfold resume
  split
  next hcontext => simpa [reaping, hc, hplace, hcontext, finish] using State.Frees.of_proc rfl
  next hcontext => simpa [reaping, hc, hplace, hcontext, finish] using State.Frees.of_proc rfl
  next hcontext =>
    simpa [reaping, hc, hplace, hcontext, finish] using
      State.Frees.same hclear.forking fun q => by rw [hclear.state]
  next hcontext =>
    simpa [reaping, hc, hplace, hcontext] using frees_waitLoop hk hrunning hclear [.switch p]

theorem frees_threadStep (h : l.Coherent) (hk : l.atomic.Consistent) {c : Fin ncpu}
    {p : Fin nproc} {w : Int} (hc : l.mode c = .running w p)
    {r : LockState nproc ncpu × List (Event nproc)} (hr : l.threadStep c p = some r) :
    State.Frees l.kernel r.1.kernel (l.reaping c) := by
  unfold threadStep at hr
  cases hplace : l.place p with
  | free => simp [hplace] at hr
  | acquiring request =>
      simp only [hplace, Option.ite_none_right_eq_some] at hr
      cases hr.2
      simpa [reaping, hc, hplace] using State.Frees.of_proc rfl
  | holding request =>
      rw [hplace] at hr
      exact frees_section h hk hc hplace hr
  | calling =>
      simp only [hplace, Option.ite_none_right_eq_some] at hr
      cases hr.2
      simpa [reaping, hc, hplace] using State.Frees.of_proc rfl
  | returning =>
      simp only [hplace, Option.some.injEq] at hr
      subst hr
      exact frees_resume h hk hc hplace
  | releasing =>
      simp only [hplace, Option.some.injEq] at hr
      subst hr
      simpa [reaping, hc, hplace] using State.Frees.of_proc rfl

theorem frees_cpuStep (h : l.Coherent) (hk : l.atomic.Consistent) {c : Fin ncpu} {winner : Int}
    {r : LockState nproc ncpu × List (Event nproc)} (hr : l.cpuStep c winner = some r) :
    State.Frees l.kernel r.1.kernel (l.reaping c) := by
  unfold cpuStep at hr
  cases hc : l.mode c with
  | running w p =>
      rw [hc] at hr
      exact frees_threadStep h hk hc hr
  | switching w p =>
      simp only [hc, Option.some.injEq] at hr
      subst hr
      have hp := h.runnable_of_switching hc
      have hfrees : State.Frees l.kernel (l.kernel.dispatch c p) none := by
        refine .same (State.setProc_keeps _ Proc.forking (by rfl)) fun q => ?_
        by_cases hq : q = p
        · simp [State.dispatch, hq, hp]
        · simp [State.dispatch, hq]
      simpa [reaping, hc] using hfrees
  | switched =>
      simp only [hc, Option.some.injEq] at hr
      subst hr
      have hfrees : State.Frees l.kernel (l.kernel.setCpu c none) none := .of_proc rfl
      simpa [reaping, hc] using hfrees
  | idle =>
      simp only [hc, Option.ite_none_right_eq_some] at hr
      cases hr.2
      simpa [reaping, hc] using State.Frees.of_proc rfl
  | acquiring chan =>
      simp only [hc, Option.ite_none_right_eq_some] at hr
      cases hr.2
      simpa [reaping, hc] using State.Frees.of_proc rfl
  | releasing =>
      simp only [hc, Option.some.injEq] at hr
      subst hr
      simpa [reaping, hc] using State.Frees.of_proc rfl
  | waking chan =>
      simp only [hc, Option.some.injEq] at hr
      subst hr
      simpa [reaping, hc] using frees_wakeup chan
  | summing rest num =>
      rw [hc] at hr
      cases rest <;> cases hr <;> simpa [reaping, hc] using State.Frees.of_proc rfl
  | picking w rest counter =>
      have hstays : r.1.kernel = l.kernel := by
        rw [hc] at hr
        cases rest with
        | nil =>
            cases hr
            rfl
        | cons p rest =>
            dsimp only at hr
            split at hr
            next =>
              cases hr
              rfl
            next => split at hr <;> cases hr <;> rfl
      rw [hstays]
      simpa [reaping, hc] using State.Frees.of_proc rfl

end LockState

/-! ## Owners -/

namespace MemState

open Classical in
/-- What the pointers hold that own memory. -/
noncomputable def holding (has : Fin nproc → Pointer → Prop) (m : MemState Page nproc ncpu)
    (x : Fin nproc × Pointer) : Option Page :=
  if has x.1 x.2 then m.field x.1 x.2 else none

@[simp] theorem setField_field (m : MemState Page nproc ncpu) (p q : Fin nproc) (f g : Pointer)
    (page : Option Page) :
    (m.setField p f page).field q g = if q = p ∧ g = f then page else m.field q g := by
  by_cases hq : q = p
  · subst hq
    simp [setField, Function.update_apply]
  · simp [setField, hq]

section Holding

variable {has has' : Fin nproc → Pointer → Prop} {m m' : MemState Page nproc ncpu}

theorem holding_of_has {q : Fin nproc} {f : Pointer} (h : has q f) :
    holding has m (q, f) = m.field q f :=
  if_pos h

theorem holding_of_not_has {q : Fin nproc} {f : Pointer} (h : ¬ has q f) :
    holding has m (q, f) = none :=
  if_neg h

theorem holding_congr {q : Fin nproc} {f : Pointer} (hhas : has' q f ↔ has q f)
    (hfield : has q f → m'.field q f = m.field q f) :
    holding has' m' (q, f) = holding has m (q, f) := by
  by_cases h : has q f
  · rw [holding_of_has h, holding_of_has (hhas.mpr h), hfield h]
  · rw [holding_of_not_has h, holding_of_not_has (mt hhas.mp h)]

/-- One pointer changes. -/
theorem holding_update {p : Fin nproc} {f : Pointer}
    (hothers : ∀ q g, ¬ (q = p ∧ g = f) → (has' q g ↔ has q g) ∧ m'.field q g = m.field q g) :
    holding has' m' = Function.update (holding has m) (p, f) (holding has' m' (p, f)) := by
  funext ⟨q, g⟩
  by_cases heq : q = p ∧ g = f
  · obtain ⟨rfl, rfl⟩ := heq
    rw [Function.update_self]
  · have hne : (q, g) ≠ (p, f) := by simpa using heq
    obtain ⟨hhas, hfield⟩ := hothers q g heq
    rw [Function.update_of_ne hne, holding_congr hhas fun _ => hfield]

end Holding

variable [DecidableEq Page]

/-- The log is kept, and what is in use belongs to the pointers that own memory. -/
structure Accounted (log : List (Entry Page)) (has : Fin nproc → Pointer → Prop)
    (m : MemState Page nproc ncpu) : Prop where
  kept : Kept log m.used
  owns : Owns (holding has m) m.used
  full : ∀ q f, has q f → m.field q f ≠ none
  null : ∀ q, ¬ has q .kstack → m.field q .kstack = none

namespace Accounted

variable {log : List (Entry Page)} {has has' : Fin nproc → Pointer → Prop}
  {m m' : MemState Page nproc ncpu} (h : Accounted log has m)
include h

theorem congr (hhas : ∀ q f, has' q f ↔ has q f)
    (hfield : ∀ q f, has q f → m'.field q f = m.field q f)
    (hnull : ∀ q, ¬ has q .kstack → m'.field q .kstack = none) (hused : m'.used = m.used) :
    Accounted log has' m' where
  kept := hused ▸ h.kept
  owns := by
    have heq : holding has' m' = holding has m :=
      funext fun x => holding_congr (hhas x.1 x.2) (hfield x.1 x.2)
    rw [heq, hused]
    exact h.owns
  full q f hq := by
    rw [hhas] at hq
    rw [hfield q f hq]
    exact h.full q f hq
  null q hq := hnull q fun hown => hq ((hhas q .kstack).mpr hown)

/-- The memory stays while the kernel goes on. -/
theorem keep (hhas : ∀ q f, has' q f ↔ has q f) (l : LockState nproc ncpu) :
    Accounted log has' { m with locked := l } :=
  h.congr hhas (fun _ _ _ => rfl) h.null rfl

/-- A pointer that owns nothing is set to 0. -/
theorem clear {p : Fin nproc} {f : Pointer} (hp : ¬ has p f) :
    Accounted log has (m.setField p f none) := by
  refine h.congr (fun _ _ => Iff.rfl) (fun q g hq => ?_) (fun q hq => ?_) rfl
  · have hne : ¬ (q = p ∧ g = f) := by
      rintro ⟨rfl, rfl⟩
      exact hp hq
    simp [hne]
  · rw [setField_field]
    split
    next => rfl
    next => exact h.null q hq

theorem alloc {p : Fin nproc} {f : Pointer} {page : Page}
    {r : MemState Page nproc ncpu × List (Entry Page)} (hr : m.alloc p f page = some r)
    (hp : ¬ has p f) (hhas : ∀ q g, has' q g ↔ has q g ∨ q = p ∧ g = f) :
    Accounted (log ++ r.2) has' r.1 := by
  unfold MemState.alloc at hr
  split at hr
  next => cases hr
  next hpage =>
    cases hr
    have howns := h.owns.take (holding_of_not_has hp) hpage
    have hown : has' p f := (hhas p f).mpr (.inr ⟨rfl, rfl⟩)
    refine ⟨h.kept.alloc hpage, ?_, fun q g hq => ?_, fun q hq => ?_⟩
    · have heq : holding has' { m.setField p f (some page) with used := insert page m.used } =
          Function.update (holding has m) (p, f) _ :=
        holding_update fun q g hne => ⟨by simp [hhas, hne], by simp [hne]⟩
      rw [heq, holding_of_has hown]
      simpa using howns
    · by_cases heq : q = p ∧ g = f
      · simp [heq]
      · simpa [heq] using h.full q g (((hhas q g).mp hq).resolve_right heq)
    · rw [hhas, not_or] at hq
      simpa [hq.2] using h.null q hq.1

theorem free {p : Fin nproc} {f : Pointer} {r : MemState Page nproc ncpu × List (Entry Page)}
    (hr : m.free p f = some r) (hp : has p f)
    (hhas : ∀ q g, has' q g ↔ has q g ∧ ¬ (q = p ∧ g = f)) : Accounted (log ++ r.2) has' r.1 := by
  obtain ⟨page, hpage, rfl⟩ := Option.map_eq_some_iff.mp hr
  have hheld : holding has m (p, f) = some page := (holding_of_has hp).trans hpage
  have howns := h.owns.give hheld
  have hlost : ¬ has' p f := fun heq => ((hhas p f).mp heq).2 ⟨rfl, rfl⟩
  refine ⟨h.kept.free ((h.owns.mem page).mpr ⟨_, hheld⟩), ?_, fun q g hq => ?_, fun q hq => ?_⟩
  · have heq : holding has' { m.setField p f (if f = .kstack then none else some page) with
          used := m.used.erase page } = Function.update (holding has m) (p, f) _ :=
      holding_update fun q g hne => ⟨by simp [hhas, hne], by simp [hne]⟩
    rw [heq, holding_of_not_has hlost]
    exact howns
  · obtain ⟨hq, hne⟩ := (hhas q g).mp hq
    simpa [hne] using h.full q g hq
  · by_cases heq : q = p ∧ .kstack = f
    · obtain ⟨rfl, rfl⟩ := heq
      simp
    · have hnot : ¬ has q .kstack := fun hown => hq ((hhas q .kstack).mpr ⟨hown, heq⟩)
      simpa [heq] using h.null q hnot

end Accounted

theorem Accounted.mem_used {log : List (Entry Page)} {has : Fin nproc → Pointer → Prop}
    {m : MemState Page nproc ncpu} (h : Accounted log has m) (page : Page) :
    page ∈ m.used ↔ ∃ q f, has q f ∧ m.field q f = some page := by
  rw [h.owns.mem]
  constructor
  · rintro ⟨⟨q, f⟩, heq⟩
    obtain ⟨hown, heq⟩ := Option.ite_none_right_eq_some.mp heq
    exact ⟨q, f, hown, heq⟩
  · rintro ⟨q, f, hown, heq⟩
    exact ⟨(q, f), (holding_of_has hown).trans heq⟩

/-- What one pointer owns no other does. -/
theorem Accounted.alone {log : List (Entry Page)} {has : Fin nproc → Pointer → Prop}
    {m : MemState Page nproc ncpu} (h : Accounted log has m) {q q' : Fin nproc} {f f' : Pointer}
    (hq : has q f) (hq' : has q' f') (heq : m.field q f = m.field q' f') : q = q' ∧ f = f' := by
  obtain ⟨page, hpage⟩ := Option.ne_none_iff_exists'.mp (h.full q f hq)
  have hfst := (holding_of_has hq).trans hpage
  have hsnd := (holding_of_has hq').trans (heq ▸ hpage)
  exact Prod.mk.inj (h.owns.alone (q, f) (q', f') page hfst hsnd)

/-- If the allocators return what is not in use, the operation succeeds; whatever
it does is accounted for. -/
structure Accounts (log : List (Entry Page)) (has : Fin nproc → Pointer → Prop) (fresh : Prop)
    (x : Option (MemState Page nproc ncpu × List (Entry Page))) : Prop where
  accounted : ∀ r, x = some r → Accounted (log ++ r.2) has r.1
  succeeds : fresh → x.isSome

namespace Accounted

variable {log : List (Entry Page)} {has has' : Fin nproc → Pointer → Prop}
  {m : MemState Page nproc ncpu} (h : Accounted log has m)
include h

theorem accounts_keep (hhas : ∀ q f, has' q f ↔ has q f) (fresh : Prop) :
    Accounts log has' fresh (some (m, [])) where
  accounted := by
    rintro _ ⟨⟩
    rw [List.append_nil]
    exact h.keep hhas m.locked
  succeeds _ := rfl

theorem accounts_alloc {p : Fin nproc} {f : Pointer} {page : Page} (hp : ¬ has p f)
    (hhas : ∀ q g, has' q g ↔ has q g ∨ q = p ∧ g = f) :
    Accounts log has' (page ∉ m.used) (m.alloc p f page) where
  accounted _ hr := h.alloc hr hp hhas
  succeeds hpage := by simp [MemState.alloc, hpage]

theorem accounts_free {p : Fin nproc} {f : Pointer} (hp : has p f)
    (hhas : ∀ q g, has' q g ↔ has q g ∧ ¬ (q = p ∧ g = f)) (fresh : Prop) :
    Accounts log has' fresh (m.free p f) where
  accounted _ hr := h.free hr hp hhas
  succeeds _ := by
    rw [MemState.free, Option.isSome_map, Option.isSome_iff_ne_none]
    exact h.full p f hp

end Accounted

theorem Accounts.andThen {log : List (Entry Page)} {has has' : Fin nproc → Pointer → Prop}
    {fresh : Prop} {x : Option (MemState Page nproc ncpu × List (Entry Page))}
    {next : MemState Page nproc ncpu → Option (MemState Page nproc ncpu × List (Entry Page))}
    (h : Accounts log has fresh x)
    (hnext : ∀ r, x = some r → Accounted (log ++ r.2) has r.1 →
      Accounts (log ++ r.2) has' fresh (next r.1)) :
    Accounts log has' fresh (x.bind fun r => MemState.andThen r next) where
  accounted := by
    intro last hlast
    obtain ⟨r, hr, hlast⟩ := Option.bind_eq_some_iff.mp hlast
    obtain ⟨final, hfinal, rfl⟩ := Option.map_eq_some_iff.mp hlast
    rw [← List.append_assoc]
    exact (hnext r hr (h.accounted r hr)).accounted final hfinal
  succeeds hfresh := by
    obtain ⟨r, hr⟩ := Option.isSome_iff_exists.mp (h.succeeds hfresh)
    rw [hr, Option.bind_some, MemState.andThen, Option.isSome_map]
    exact (hnext r hr (h.accounted r hr)).succeeds hfresh

theorem Accounts.mono {log : List (Entry Page)} {has : Fin nproc → Pointer → Prop}
    {fresh fresh' : Prop} {x : Option (MemState Page nproc ncpu × List (Entry Page))}
    (h : Accounts log has fresh x) (hfresh : fresh' → fresh) : Accounts log has fresh' x :=
  ⟨h.accounted, fun h' => h.succeeds (hfresh h')⟩

/-! ## Every step -/

/-- What the allocators are about to return is not in use. -/
def Fresh (m : MemState Page nproc ncpu) (a : MemAction Page nproc ncpu) : Prop :=
  a.kalloc ∉ m.used ∧ a.vm ∉ m.used ∧ a.kalloc ≠ a.vm

namespace Accounted

variable {log : List (Entry Page)} {m : MemState Page nproc ncpu}
  (h : Accounted log m.locked.kernel.Has m) (hcoherent : m.locked.Coherent)
  (hk : m.locked.atomic.Consistent)
include h

theorem userinit {a : MemAction Page nproc ncpu} {k : State nproc ncpu} {i : Fin nproc}
    (hi : (m.locked.kernel.proc i).state = .unused)
    (hhas : ∀ q f, k.Has q f ↔ m.locked.kernel.Has q f ∨ q = i) :
    Accounts log k.Has (m.Fresh a)
      ((m.alloc i .kstack a.kalloc).bind fun r => MemState.andThen r fun m =>
        m.alloc i .pgdir a.vm) := by
  have hnot : ∀ f, ¬ m.locked.kernel.Has i f := fun f hown => hown.1 hi
  have hfirst : Accounts log (fun q f => m.locked.kernel.Has q f ∨ q = i ∧ f = .kstack)
      (a.kalloc ∉ m.used) (m.alloc i .kstack a.kalloc) :=
    h.accounts_alloc (hnot .kstack) fun _ _ => Iff.rfl
  refine (hfirst.mono And.left).andThen fun r hr hthen => ?_
  have hused : r.1.used = insert a.kalloc m.used := by
    unfold MemState.alloc at hr
    split at hr
    next => cases hr
    next =>
      cases hr
      rfl
  refine (hthen.accounts_alloc (by simp [hnot]) fun q f => ?_).mono fun hfresh => ?_
  · rw [hhas]
    cases f <;> simp
  · simpa [hused, eq_comm] using ⟨hfresh.2.2, hfresh.2.1⟩

/-- `wait` frees both. -/
theorem reap {k : State nproc ncpu} {i : Fin nproc}
    (hfrees : State.Frees m.locked.kernel k (some i)) (fresh : Prop) :
    Accounts log k.Has fresh
      ((m.free i .kstack).bind fun r => MemState.andThen r fun m => m.free i .pgdir) := by
  have howned := hfrees.owned i rfl
  have hfirst : Accounts log (fun q f => m.locked.kernel.Has q f ∧ ¬ (q = i ∧ f = .kstack))
      fresh (m.free i .kstack) :=
    h.accounts_free (howned .kstack) (fun _ _ => Iff.rfl) fresh
  refine hfirst.andThen fun r _ hthen => ?_
  refine hthen.accounts_free ⟨howned .pgdir, by simp⟩ (fun q f => ?_) fresh
  rw [hfrees.has]
  cases f <;> simp [eq_comm]

section Fork

variable {p np : Fin nproc} {stage : ForkStage}
  (hfork : (m.locked.kernel.proc p).forking = some (np, stage))
include hk hfork

/-- `fork` sets a pointer of the new slot, and goes on to the stage that says so. -/
theorem fork (f : Pointer) (page : Page) (slot : Proc nproc) (stage' : ForkStage)
    (hslot : slot.forking = (m.locked.kernel.proc np).forking) (hstate : slot.state ≠ .unused)
    (hset : ∀ g : Pointer, g.SetAt stage' ↔ g.SetAt stage ∨ g = f) (hf : ¬ f.SetAt stage) :
    Accounts log ((m.locked.kernel.setProc np slot).setForking p (some (np, stage'))).Has
      (page ∉ m.used) (m.alloc np f page) := by
  have hown := LockState.has_newSlot hk hfork
  refine h.accounts_alloc (mt (hown f).mp hf) fun q g => ?_
  rw [LockState.has_fork hk hfork slot hslot (by simp)]
  split
  next heq =>
    subst heq
    simp [hown, hstate, hset]
  next hq => simp [hq]

/-- `fork` fails for want of a kernel stack, having nothing to give back. -/
theorem forkKalloc_fails (hstage : stage = .allocated) (fresh : Prop) :
    Accounts log (m.locked.kernel.abortFork p np).Has fresh
      (some (m.setField np .kstack none, [])) := by
  subst hstage
  have hnot : ∀ f, ¬ m.locked.kernel.Has np f := by
    intro f
    rw [LockState.has_newSlot hk hfork]
    cases f <;> simp [Pointer.SetAt]
  refine (h.clear (hnot .kstack)).accounts_keep (fun q f => ?_) fresh
  rw [LockState.has_abortFork hk hfork, and_iff_left_iff_imp]
  rintro hq rfl
  exact hnot f hq

/-- `fork` fails for want of an address space, and gives the kernel stack back. -/
theorem forkCopy_fails (hstage : stage = .kstack) (fresh : Prop) :
    Accounts log (m.locked.kernel.abortFork p np).Has fresh
      ((m.setField np .pgdir none).free np .kstack) := by
  subst hstage
  have hown := LockState.has_newSlot hk hfork
  have hpgdir : ¬ m.locked.kernel.Has np .pgdir := by
    rw [hown]
    simp [Pointer.SetAt]
  refine (h.clear hpgdir).accounts_free ((hown .kstack).mpr (by simp [Pointer.SetAt]))
    (fun q f => ?_) fresh
  rw [LockState.has_abortFork hk hfork]
  refine and_congr_right fun hq => ?_
  constructor
  · rintro hne ⟨heq, -⟩
    exact hne heq
  · rintro hne rfl
    cases f with
    | kstack => exact hne ⟨rfl, rfl⟩
    | pgdir => exact hpgdir hq

end Fork

include hcoherent hk

/-- What a step of the kernel does to the memory. -/
theorem memory {a : MemAction Page nproc ncpu}
    {r : LockState nproc ncpu × List (Event nproc)} (hr : m.locked.step a.action = some r) :
    Accounts log r.1.kernel.Has (m.Fresh a) (m.memory a) := by
  obtain ⟨action, kalloc, vm⟩ := a
  dsimp only at hr
  unfold MemState.memory
  cases action with
  | userinit =>
      simp only [LockState.step, Option.ite_none_right_eq_some, Option.map_eq_some_iff] at hr
      obtain ⟨-, i, hi, rfl⟩ := hr
      simp only [hi, Option.bind_some]
      have hunused := findUnused_some hi
      have hforking : ∀ q, ((m.locked.kernel.startInit i).proc q).forking =
          (m.locked.kernel.proc q).forking := fun q =>
        (State.setProc_keeps _ Proc.forking (by rfl) q).trans (State.allocSlot_forking ..)
      refine h.userinit hunused fun q f => ?_
      by_cases hq : q = i
      · subst hq
        have hidle : ∀ p stage, (m.locked.kernel.proc p).forking ≠ some (q, stage) := by
          intro p stage hfork
          rw [LockState.embryo_of_fork hk hfork] at hunused
          cases hunused
        simpa using State.has_of_idle (k := (m.locked.kernel.startInit q))
          (by simp [State.startInit]) (by simpa [hforking] using hidle) f
      · have hstate : ((m.locked.kernel.startInit i).proc q).state =
            (m.locked.kernel.proc q).state := by
          simp [State.startInit, State.allocSlot, hq]
        simp [State.Has, hforking, hstate, hq]
  | call c request =>
      obtain ⟨p, -, hr⟩ := Option.bind_eq_some_iff.mp hr
      obtain ⟨-, hr⟩ := Option.ite_none_right_eq_some.mp hr
      cases hr
      exact h.accounts_keep (fun _ _ => Iff.rfl) _
  | forkKalloc c ok =>
      obtain ⟨p, hp, hr⟩ := Option.bind_eq_some_iff.mp hr
      split at hr
      next np hfork =>
        simp only [LockState.newSlot, hp, Option.bind_some, hfork, Option.map_some]
        cases ok with
        | true =>
            cases hr
            refine (h.fork hk hfork .kstack kalloc
              { m.locked.kernel.proc np with context := .forkret } .kstack rfl ?_ ?_ ?_).mono
                And.left
            · simp [LockState.embryo_of_fork hk hfork]
            · intro g
              cases g <;> simp [Pointer.SetAt]
            · simp [Pointer.SetAt]
        | false =>
            cases hr
            exact h.forkKalloc_fails hk hfork rfl _
      next => cases hr
  | forkCopy c ok =>
      obtain ⟨p, hp, hr⟩ := Option.bind_eq_some_iff.mp hr
      split at hr
      next np hfork =>
        simp only [LockState.newSlot, hp, Option.bind_some, hfork, Option.map_some]
        cases ok with
        | true =>
            cases hr
            refine (h.fork hk hfork .pgdir vm { m.locked.kernel.proc np with parent := some p }
              .copied rfl ?_ ?_ ?_).mono fun hfresh => hfresh.2.1
            · simp [LockState.embryo_of_fork hk hfork]
            · intro g
              cases g <;> simp [Pointer.SetAt]
            · simp [Pointer.SetAt]
        | false =>
            cases hr
            exact h.forkCopy_fails hk hfork rfl _
      next => cases hr
  | settickets c tix =>
      obtain ⟨p, -, hr⟩ := Option.bind_eq_some_iff.mp hr
      obtain ⟨-, hr⟩ := Option.ite_none_right_eq_some.mp hr
      cases hr
      refine h.accounts_keep (State.has_congr (State.setProc_keeps _ Proc.forking (by rfl)) ?_) _
      intro q
      rw [State.setProc_keeps _ Proc.state (by rfl)]
  | interrupt c chan =>
      simp only [LockState.step, Option.ite_none_right_eq_some] at hr
      cases hr.2
      exact h.accounts_keep (fun _ _ => Iff.rfl) _
  | cpu c winner =>
      have hfrees := LockState.frees_cpuStep hcoherent hk hr
      dsimp only
      split
      next i hreaping =>
        rw [hreaping] at hfrees
        exact h.reap hfrees _
      next hreaping =>
        rw [hreaping] at hfrees
        exact h.accounts_keep (fun q f => by simp [hfrees.has]) _

end Accounted

theorem step_eq_some {m m' : MemState Page nproc ncpu} {a : MemAction Page nproc ncpu}
    {entries : List (Entry Page)} (h : m.step a = some (m', entries)) :
    ∃ r last, m.locked.step a.action = some r ∧ m.memory a = some last ∧
      m' = { last.1 with locked := r.1 } ∧ entries = last.2 := by
  obtain ⟨r, hr, h⟩ := Option.bind_eq_some_iff.mp h
  obtain ⟨last, hlast, heq⟩ := Option.map_eq_some_iff.mp h
  cases heq
  exact ⟨r, last, hr, hlast, rfl, rfl⟩

/-! ## Every run -/

section Runs

variable {log : List (Entry Page)} {m : MemState Page nproc ncpu}

theorem locked_of_reach (h : Reach MemState.step anyStep (.boot Page nproc ncpu) log m) :
    ∃ history, Reach LockState.step anyStep (.boot nproc ncpu) history m.locked := by
  induction h with
  | start => exact ⟨[], .start⟩
  | step _ _ hstep ih =>
      obtain ⟨history, hreach⟩ := ih
      obtain ⟨r, last, hr, -, rfl, -⟩ := step_eq_some hstep
      exact ⟨_, .step hreach trivial hr⟩

theorem coherent_of_reach (h : Reach MemState.step anyStep (.boot Page nproc ncpu) log m) :
    m.locked.Coherent ∧ m.locked.atomic.Consistent := by
  obtain ⟨history, hreach⟩ := locked_of_reach h
  obtain ⟨hcoherent, hatomic⟩ := LockState.coherent_of_reach hreach
  exact ⟨hcoherent, consistent_of_reach hatomic⟩

theorem boot_accounted :
    Accounted [] (MemState.boot Page nproc ncpu).locked.kernel.Has (.boot Page nproc ncpu) := by
  have hnot : ∀ q f, ¬ (MemState.boot Page nproc ncpu).locked.kernel.Has q f := by
    intro q f hown
    exact hown.1 (by simp [boot, LockState.boot, State.boot, Proc.zero])
  refine ⟨.nil, ?_, fun q f hq => absurd hq (hnot q f), fun q _ => rfl⟩
  have heq : holding (MemState.boot Page nproc ncpu).locked.kernel.Has (.boot Page nproc ncpu) =
      fun _ => none :=
    funext fun x => holding_of_not_has (hnot x.1 x.2)
  rw [heq]
  exact .none

theorem accounted_of_reach (h : Reach MemState.step anyStep (.boot Page nproc ncpu) log m) :
    Accounted log m.locked.kernel.Has m := by
  induction h with
  | start => exact boot_accounted
  | step prior _ hstep ih =>
      obtain ⟨hcoherent, hk⟩ := coherent_of_reach prior
      obtain ⟨r, last, hr, hlast, rfl, rfl⟩ := step_eq_some hstep
      have hthen := (ih.memory hcoherent hk hr).accounted last hlast
      exact hthen.keep (fun _ _ => Iff.rfl) r.1

/-- In every run a page has come back as often as it was handed out, or once less: then
one pointer that owns memory has it, and only one. `p->kstack` is 0 exactly when it
owns nothing. Nothing is freed that is not in use, and no step of the kernel comes to
`kfree` or `freevm` of a null pointer. -/
theorem memory_accounted (h : Reach MemState.step anyStep (.boot Page nproc ncpu) log m) :
    (Kept log m.used ∧ ∀ page, log.count (.alloc page) =
      log.count (.free page) + if page ∈ m.used then 1 else 0) ∧
    (∀ page, page ∈ m.used ↔ ∃ q f, m.locked.kernel.Has q f ∧ m.field q f = some page) ∧
    (∀ q f q' f', m.locked.kernel.Has q f → m.locked.kernel.Has q' f' →
      m.field q f = m.field q' f' → q = q' ∧ f = f') ∧
    (∀ q, m.field q .kstack = none ↔ ¬ m.locked.kernel.Has q .kstack) ∧
    ∀ a, m.Fresh a → (m.locked.step a.action).isSome → (m.step a).isSome := by
  obtain ⟨hcoherent, hk⟩ := coherent_of_reach h
  have hm := accounted_of_reach h
  refine ⟨⟨hm.kept, hm.kept.count⟩, hm.mem_used, fun q f q' f' hq hq' heq => hm.alone hq hq' heq,
    fun q => ⟨fun hnull hown => hm.full q .kstack hown hnull, hm.null q⟩, fun a hfresh hstep => ?_⟩
  obtain ⟨r, hr⟩ := Option.isSome_iff_exists.mp hstep
  have hmemory := (hm.memory hcoherent hk hr).succeeds hfresh
  simpa [MemState.step, hr] using hmemory

/-- The allocators return pages in order. -/
def withPages (actions : List (LockAction nproc ncpu)) : List (MemAction Nat nproc ncpu) :=
  actions.zipIdx.map fun (action, i) => ⟨action, 2 * i, 2 * i + 1⟩

/-- The child of `initproc` exits, and is about to call `sched`. -/
def exitRun (c : Fin ncpu) : List (MemAction Nat nproc ncpu) :=
  withPages (LockState.sleepRun c ++ List.replicate 9 (.cpu c 0) ++
    [.call c .exit, .cpu c 0, .cpu c 0])

/-- `initproc` frees it. -/
def reapRun (c : Fin ncpu) : List (MemAction Nat nproc ncpu) :=
  withPages (LockState.sleepRun c ++ List.replicate 9 (.cpu c 0) ++
    [.call c .exit] ++ List.replicate 12 (.cpu c 0))

theorem reapRun_isSome : (run MemState.step (.boot Nat 2 2) (reapRun 0)).isSome := by
  decide +kernel

theorem memory_accounted_reapRun : ∃ log, ∃ m : MemState Nat 2 2,
    Reach MemState.step anyStep (.boot Nat 2 2) log m ∧ .free 26 ∈ log ∧
      log.count (.alloc 26) = log.count (.free 26) := by
  have hreach := Reach.of_isSome (reapRun 0) (admitted_anyStep _ _) reapRun_isSome
  refine ⟨_, _, hreach, by decide +kernel, ?_⟩
  rw [(memory_accounted hreach).1.2 26, if_neg (by decide +kernel), Nat.add_zero]

/-- The kernel stack and the address space that a CPU works with, or is about to switch
to, are in use, be the process a ZOMBIE already; and no two CPUs share one. -/
theorem cpu_memory (h : Reach MemState.step anyStep (.boot Page nproc ncpu) log m) :
    (∀ c w p, m.locked.mode c = .running w p ∨ m.locked.mode c = .switching w p →
      ∀ f, ∃ page, m.field p f = some page ∧ page ∈ m.used) ∧
    ∀ c d w w' p q f, m.locked.mode c = .running w p → m.locked.mode d = .running w' q →
      m.field p f = m.field q f → c = d := by
  obtain ⟨hcoherent, hk⟩ := coherent_of_reach h
  have hm := accounted_of_reach h
  have hrunning : ∀ c w p, m.locked.mode c = .running w p → ∀ f, m.locked.kernel.Has p f :=
    fun c w p hc => hcoherent.has_of_running hk hc
  refine ⟨fun c w p hc f => ?_, fun c d w w' p q f hc hd heq => ?_⟩
  · have hown : m.locked.kernel.Has p f := by
      rcases hc with hc | hc
      · exact hrunning c w p hc f
      · exact hcoherent.has_of_switching hk hc f
    obtain ⟨page, hpage⟩ := Option.ne_none_iff_exists'.mp (hm.full p f hown)
    exact ⟨page, hpage, (hm.mem_used page).mpr ⟨p, f, hown, hpage⟩⟩
  · obtain ⟨rfl, -⟩ := hm.alone (hrunning c w p hc f) (hrunning d w' q hd f) heq
    exact hcoherent.apart hk hc hd

theorem exitRun_isSome : (run MemState.step (.boot Nat 2 2) (exitRun 0)).isSome := by
  decide +kernel

theorem cpu_memory_exitRun : ∃ log, ∃ m : MemState Nat 2 2,
    Reach MemState.step anyStep (.boot Nat 2 2) log m ∧
      (m.locked.kernel.proc 1).state = .zombie ∧
        ∃ page, m.field 1 .kstack = some page ∧ page ∈ m.used := by
  have hreach := Reach.of_isSome (exitRun 0) (admitted_anyStep _ _) exitRun_isSome
  refine ⟨_, _, hreach, by decide +kernel, ?_⟩
  exact (cpu_memory hreach).1 0 0 1 (.inl (by decide +kernel)) .kstack

end Runs

end MemState

end OsCourse.Kernel
