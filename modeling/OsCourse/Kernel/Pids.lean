import OsCourse.Kernel.Family

/-! # Process identifiers

The pids in use are distinct as long as `nextpid` has not wrapped around, so a
pid names one process for the whole run. The history of a run says who forked
which pid and who has reaped it.
-/

namespace OsCourse.Kernel

open Transition State MachineInt

variable {nproc ncpu : Nat}

/-- The event is an allocation of a slot. -/
def Event.isAlloc : Event nproc → Bool
  | .alloc _ _ => true
  | _ => false

/-- The event is a return of `pid` from `wait`. -/
def Event.reaps (pid : Int) : Event nproc → Bool
  | .wait _ ret => ret = pid
  | _ => false

/-- The number of slot allocations. -/
def allocs (history : List (Event nproc)) : Nat := history.countP Event.isAlloc

/-- The slots in use have pids of their own, all below `nextpid`. -/
structure State.Numbered (k : State nproc ncpu) : Prop where
  pid_pos : ∀ i, (k.proc i).state ≠ .unused → 1 ≤ (k.proc i).pid
  pid_lt : ∀ i, (k.proc i).state ≠ .unused → (k.proc i).pid < k.nextpid
  pid_injective : ∀ i j, (k.proc i).state ≠ .unused → (k.proc j).state ≠ .unused →
    (k.proc i).pid = (k.proc j).pid → i = j

/-- The history of a run and the table agree on the pids handed out: none is
beyond `nextpid`, a slot still in `fork` has not been announced, and a slot in
use has not been reaped. -/
structure Recorded (history : List (Event nproc)) (k : State nproc ncpu) : Prop where
  forked_lt : ∀ f n, .fork f n ∈ history → n < k.nextpid
  waited_lt : ∀ w n, .wait w n ∈ history → n < k.nextpid
  embryo_unforked : ∀ i f, (k.proc i).state = .embryo → .fork f (k.proc i).pid ∉ history
  live_unwaited : ∀ i w, (k.proc i).state ≠ .unused → .wait w (k.proc i).pid ∉ history

/-- No pid has been returned by `wait` twice. -/
def ReapedOnce (history : List (Event nproc)) : Prop :=
  ∀ n, n ≠ -1 → history.countP (Event.reaps n) ≤ 1

/-- A parent has forked its child, or is `initproc` and the forker has exited. -/
def ForkerKnown (history : List (Event nproc)) (k : State nproc ncpu) : Prop :=
  ∀ i q f, (k.proc i).parent = some q → .fork f (k.proc i).pid ∈ history →
    (k.proc q).pid = f ∨ (k.initproc = some q ∧ .exit f ∈ history)

/-- Each pid was reaped by its forker, or by `initproc` after the forker's exit. -/
def ReaperRight (history : List (Event nproc)) (k : State nproc ncpu) : Prop :=
  ∀ first last w n f, history = first ++ .wait w n :: last → n ≠ -1 → .fork f n ∈ history →
    w = f ∨ ((∃ r, k.initproc = some r ∧ (k.proc r).pid = w) ∧ .exit f ∈ first)

variable {k k' : State nproc ncpu} {a : Action nproc ncpu} {history events : List (Event nproc)}

/-! ## Entries in the books

Seen from the pids and parents, there are five kinds of effects.
-/

/-- The event does not concern the pids in use. -/
def Event.Quiet : Event nproc → Prop
  | .fork _ ret => ret = -1
  | .wait _ ret => ret = -1
  | .kill _ _ => True
  | .switch _ => True
  | _ => False

/-- No slot comes into use, and the slots in use keep their pids. -/
structure KeepsPids (k k' : State nproc ncpu) : Prop where
  nextpid : k'.nextpid = k.nextpid
  initproc : k'.initproc = k.initproc
  pid : ∀ q, (k'.proc q).state ≠ .unused →
    (k.proc q).state ≠ .unused ∧ (k'.proc q).pid = (k.proc q).pid
  active : ∀ q, (k.proc q).state.Active → (k'.proc q).state ≠ .unused
  embryo : ∀ q, (k'.proc q).state = .embryo → (k.proc q).state = .embryo

inductive Entry (k k' : State nproc ncpu) : List (Event nproc) → Prop
  | quiet {events : List (Event nproc)} (hkeeps : KeepsPids k k')
      (hquiet : ∀ e ∈ events, e.Quiet)
      (hparent : ∀ q r, (k'.proc q).parent = some r →
        (k.proc q).parent = some r ∨ (k'.proc q).state = .embryo) :
      Entry k k' events
  | alloc {np : Fin nproc} (hnp : (k.proc np).state = .unused)
      (hnext : k'.nextpid = wrap (k.nextpid + 1)) (hpid : (k'.proc np).pid = k.nextpid)
      (hinit : k.initproc = none ∨ k'.initproc = k.initproc)
      (hparent : ∀ q, (k'.proc q).parent = (k.proc q).parent)
      (hothers : ∀ q, q ≠ np → (k'.proc q).pid = (k.proc q).pid ∧
        (k'.proc q).state = (k.proc q).state) :
      Entry k k' [.alloc np k.nextpid]
  | fork {p np : Fin nproc} (hkeeps : KeepsPids k k') (hnp : (k.proc np).state = .embryo)
      (hnp' : (k'.proc np).state = .runnable) (hchild : (k.proc np).parent = some p)
      (hparent : ∀ q, (k'.proc q).parent = (k.proc q).parent) :
      Entry k k' [.fork (k.proc p).pid (k.proc np).pid]
  | exit {p : Fin nproc} (hkeeps : KeepsPids k k') (hinit : k.initproc ≠ some p)
      (hparent : ∀ q, (k'.proc q).parent =
        if (k.proc q).parent = some p then k.initproc else (k.proc q).parent) :
      Entry k k' [.exit (k.proc p).pid]
  | reap {p i : Fin nproc} (hkeeps : KeepsPids k k') (hi : (k.proc i).state = .zombie)
      (hi' : (k'.proc i).state = .unused) (hchild : (k.proc i).parent = some p)
      (hparent : ∀ q r, (k'.proc q).parent = some r → (k.proc q).parent = some r) :
      Entry k k' [.wait (k.proc p).pid (k.proc i).pid]

theorem State.SameKin.keepsPids (hkin : k.SameKin k') : KeepsPids k k' := by
  have hstate := hkin.state
  have hpid := hkin.pid
  unfold ProcState.Active at hstate
  refine ⟨hkin.nextpid, hkin.initproc, ?_, ?_, ?_⟩
  · grind
  · unfold ProcState.Active
    grind
  · grind

theorem LocalEffect.quiet (h : LocalEffect k a k' events) : ∀ e ∈ events, e.Quiet := by
  cases h with
  | none hfailed =>
      intro e he
      have hfail := hfailed e he
      cases e <;> simp_all [Event.Quiet, Event.Failed]
  | _ => simp [Event.Quiet]

theorem Effect.entry (h : Effect k a k' events) (hk : k.Consistent) (hfam : k.Family) :
    Entry k k' events := by
  have hrun := hk.running_of_cpu
  have hembryo := hk.embryo_of_forking
  have hforking := hfam.parent_forking
  cases h with
  | stay h =>
      have hkin := h.sameKin hk
      refine .quiet hkin.keepsPids h.quiet ?_
      intro q r hq
      exact .inl (hkin.parent q ▸ hq)
  | userinit hinit hi =>
      refine .alloc hi rfl ?_ (.inl hinit) ?_ ?_ <;>
        simp only [startInit, allocSlot, setProc_proc] <;> grind
  | forkAlloc hc hidle hnp =>
      refine .alloc hnp rfl ?_ (.inr rfl) ?_ ?_ <;>
        simp only [setForking, allocSlot, setProc_proc] <;> grind
  | forkKstack hc hfork =>
      refine .quiet ⟨rfl, rfl, ?_, ?_, ?_⟩ (by simp) ?_ <;>
        simp only [ProcState.Active, setForking, setProc_proc] <;> grind
  | forkCopy hc hfork =>
      refine .quiet ⟨rfl, rfl, ?_, ?_, ?_⟩ (by simp) ?_ <;>
        simp only [ProcState.Active, setForking, setProc_proc] <;> grind
  | forkAbort hc hfork hstage ha =>
      refine .quiet ⟨rfl, rfl, ?_, ?_, ?_⟩ (by simp [Event.Quiet]) ?_ <;>
        simp only [ProcState.Active, abortFork, setForking, setProc_proc] <;> grind
  | forkFinish hc hfork =>
      refine .fork ⟨rfl, rfl, ?_, ?_, ?_⟩ (hembryo _ _ _ hfork) ?_ (hforking _ _ _ hfork) ?_ <;>
        simp only [ProcState.Active, setForking, setProc_proc] <;> grind
  | exit hc hidle hinit hwakes =>
      have hsleeping := hwakes.sleeping
      refine .exit ⟨rfl, rfl, ?_, ?_, ?_⟩ hinit (fun _ => rfl) <;>
        simp only [ProcState.Active, exitWith] <;> grind
  | reap hc hparent hi ha =>
      refine .reap ⟨rfl, rfl, ?_, ?_, ?_⟩ hi ?_ hparent ?_ <;>
        simp only [ProcState.Active, State.reap, setProc_proc] <;> grind

/-! ## Distinct pids -/

theorem allocs_append (first last : List (Event nproc)) :
    allocs (first ++ last) = allocs first + allocs last :=
  List.countP_append

theorem allocs_eq_zero (h : ∀ e ∈ events, e.Quiet) : allocs events = 0 := by
  apply List.countP_eq_zero.mpr
  intro e he halloc
  have hquiet := h e he
  cases e <;> simp_all [Event.isAlloc, Event.Quiet]

/-- `nextpid` counts the allocations as long as it does not overflow. -/
theorem Entry.nextpid_eq (h : Entry k k' events) (hpos : 1 ≤ k.nextpid)
    (hle : k.nextpid + allocs events ≤ intMax) : k'.nextpid = k.nextpid + allocs events := by
  cases h with
  | alloc hnp hnext =>
      rw [hnext]
      exact wrap_of_inRange (inRange_of_nonneg (by omega) le_rfl hle)
  | quiet hkeeps hquiet =>
      rw [hkeeps.nextpid, allocs_eq_zero hquiet, Nat.cast_zero, add_zero]
  | fork hkeeps => simp [hkeeps.nextpid, allocs, Event.isAlloc]
  | exit hkeeps => simp [hkeeps.nextpid, allocs, Event.isAlloc]
  | reap hkeeps => simp [hkeeps.nextpid, allocs, Event.isAlloc]

theorem KeepsPids.numbered (hkeeps : KeepsPids k k') (hnum : k.Numbered) : k'.Numbered := by
  constructor
  · intro i hi
    obtain ⟨hused, hpid⟩ := hkeeps.pid i hi
    rw [hpid]
    exact hnum.pid_pos i hused
  · intro i hi
    obtain ⟨hused, hpid⟩ := hkeeps.pid i hi
    rw [hpid, hkeeps.nextpid]
    exact hnum.pid_lt i hused
  · intro i j hi hj heq
    obtain ⟨hused, hpid⟩ := hkeeps.pid i hi
    obtain ⟨hused', hpid'⟩ := hkeeps.pid j hj
    rw [hpid, hpid'] at heq
    exact hnum.pid_injective i j hused hused' heq

theorem Entry.numbered (h : Entry k k' events) (hnum : k.Numbered) (hpos : 1 ≤ k.nextpid)
    (hnext : k'.nextpid = k.nextpid + allocs events) : k'.Numbered := by
  cases h with
  | quiet hkeeps => exact hkeeps.numbered hnum
  | fork hkeeps => exact hkeeps.numbered hnum
  | exit hkeeps => exact hkeeps.numbered hnum
  | reap hkeeps => exact hkeeps.numbered hnum
  | @alloc np hnp _ hpid _ _ hothers =>
      -- the old pids are below `nextpid`, the new one is equal to it
      have hone : allocs [.alloc np k.nextpid] = 1 := rfl
      rw [hone] at hnext
      obtain ⟨hold, hlt, hinj⟩ := hnum
      refine ⟨?_, ?_, ?_⟩ <;> grind

/-! ## Forked and reaped pids -/

/-- When the slots in use keep their pids, only the pids of the new events are at stake. -/
theorem KeepsPids.recorded (hkeeps : KeepsPids k k') (hrec : Recorded history k)
    (hfork : ∀ f n, .fork f n ∈ events →
      n < k.nextpid ∧ ∀ i, (k'.proc i).state = .embryo → (k'.proc i).pid ≠ n)
    (hwait : ∀ w n, .wait w n ∈ events →
      n < k.nextpid ∧ ∀ i, (k'.proc i).state ≠ .unused → (k'.proc i).pid ≠ n) :
    Recorded (history ++ events) k' := by
  constructor
  · intro f n hmem
    rw [hkeeps.nextpid]
    rcases List.mem_append.mp hmem with hold | hnew
    · exact hrec.forked_lt f n hold
    · exact (hfork f n hnew).1
  · intro w n hmem
    rw [hkeeps.nextpid]
    rcases List.mem_append.mp hmem with hold | hnew
    · exact hrec.waited_lt w n hold
    · exact (hwait w n hnew).1
  · intro i f hembryo hmem
    have hi : (k'.proc i).state ≠ .unused := by
      rw [hembryo]
      exact ProcState.noConfusion
    rcases List.mem_append.mp hmem with hold | hnew
    · rw [(hkeeps.pid i hi).2] at hold
      exact hrec.embryo_unforked i f (hkeeps.embryo i hembryo) hold
    · exact (hfork f _ hnew).2 i hembryo rfl
  · intro i w hi hmem
    rcases List.mem_append.mp hmem with hold | hnew
    · obtain ⟨hused, hpid⟩ := hkeeps.pid i hi
      rw [hpid] at hold
      exact hrec.live_unwaited i w hused hold
    · exact (hwait w _ hnew).2 i hi rfl

/-- A pid found in the slot of `q` is in no other slot. -/
theorem KeepsPids.pid_ne (hkeeps : KeepsPids k k') (hnum : k.Numbered) {i q : Fin nproc}
    (hi : (k'.proc i).state ≠ .unused) (hq : (k.proc q).state ≠ .unused) (hne : i ≠ q) :
    (k'.proc i).pid ≠ (k.proc q).pid := by
  intro heq
  obtain ⟨hused, hpid⟩ := hkeeps.pid i hi
  rw [hpid] at heq
  exact hne (hnum.pid_injective i q hused hq heq)

theorem Entry.recorded (h : Entry k k' events) (hnum : k.Numbered)
    (hnext : k'.nextpid = k.nextpid + allocs events) (hpos : 1 ≤ k.nextpid)
    (hrec : Recorded history k) : Recorded (history ++ events) k' := by
  cases h with
  | quiet hkeeps hquiet hparent =>
      have hunused : ∀ i, (k'.proc i).state ≠ .unused → (k'.proc i).pid ≠ -1 := by
        intro i hi heq
        obtain ⟨hused, hpid⟩ := hkeeps.pid i hi
        have hone := hnum.pid_pos i hused
        omega
      apply hkeeps.recorded hrec
      · intro f n hnew
        have hfail : n = -1 := hquiet _ hnew
        refine ⟨by omega, fun i hembryo => ?_⟩
        rw [hfail]
        apply hunused i
        rw [hembryo]
        exact ProcState.noConfusion
      · intro w n hnew
        have hfail : n = -1 := hquiet _ hnew
        refine ⟨by omega, fun i hi => ?_⟩
        rw [hfail]
        exact hunused i hi
  | @alloc np hnp _ hpid _ _ hothers =>
      have hone : allocs [.alloc np k.nextpid] = 1 := rfl
      rw [hone] at hnext
      obtain ⟨hold, hlt, hinj⟩ := hnum
      obtain ⟨hforked, hwaited, hunforked, hunwaited⟩ := hrec
      constructor <;> simp only [List.mem_append, List.mem_singleton] <;> grind
  | @fork p np hkeeps hnp hnp' hchild hparent =>
      have hused : (k.proc np).state ≠ .unused := by
        rw [hnp]
        exact ProcState.noConfusion
      apply hkeeps.recorded hrec
      · intro f n hnew
        simp only [List.mem_singleton, Event.fork.injEq] at hnew
        rw [hnew.2]
        refine ⟨hnum.pid_lt np hused, fun i hembryo => ?_⟩
        apply hkeeps.pid_ne hnum _ hused
        · rintro rfl
          rw [hnp'] at hembryo
          cases hembryo
        · rw [hembryo]
          exact ProcState.noConfusion
      · intro w n hnew
        simp at hnew
  | exit hkeeps hinit hparent =>
      apply hkeeps.recorded hrec
      · intro f n hnew
        simp at hnew
      · intro w n hnew
        simp at hnew
  | @reap p q hkeeps hq hq' hchild hparent =>
      have hused : (k.proc q).state ≠ .unused := by
        rw [hq]
        exact ProcState.noConfusion
      apply hkeeps.recorded hrec
      · intro f n hnew
        simp at hnew
      · intro w n hnew
        simp only [List.mem_singleton, Event.wait.injEq] at hnew
        rw [hnew.2]
        refine ⟨hnum.pid_lt q hused, fun i hi => ?_⟩
        apply hkeeps.pid_ne hnum hi hused
        rintro rfl
        exact hi hq'

theorem countP_reaps_eq_zero {n : Int} (h : ∀ w, .wait w n ∉ history) :
    history.countP (Event.reaps n) = 0 := by
  apply List.countP_eq_zero.mpr
  intro e he hreaps
  cases e with
  | wait w ret =>
      have heq : ret = n := by simpa [Event.reaps] using hreaps
      exact h w (heq ▸ he)
  | _ => simp [Event.reaps] at hreaps

/-- Only `wait` reaps, and it reaps pids in use. -/
theorem Entry.reapedOnce (h : Entry k k' events) (hrec : Recorded history k)
    (honce : ReapedOnce history) : ReapedOnce (history ++ events) := by
  intro n hn
  rw [List.countP_append]
  cases h with
  | quiet hkeeps hquiet hparent =>
      have hnone : events.countP (Event.reaps n) = 0 := by
        apply countP_reaps_eq_zero
        intro w he
        exact hn (hquiet _ he)
      rw [hnone]
      exact honce n hn
  | @reap p i hkeeps hi hi' hchild hparent =>
      by_cases heq : (k.proc i).pid = n
      · have hnone : history.countP (Event.reaps n) = 0 := by
          apply countP_reaps_eq_zero
          intro w
          rw [← heq]
          apply hrec.live_unwaited i w
          rw [hi]
          exact ProcState.noConfusion
        rw [hnone, zero_add]
        exact List.countP_le_length
      · simpa [Event.reaps, heq] using honce n hn
  | alloc => simpa [Event.reaps] using honce n hn
  | fork => simpa [Event.reaps] using honce n hn
  | exit => simpa [Event.reaps] using honce n hn

/-! ## Who reaps -/

theorem KeepsPids.parent_pid (hkeeps : KeepsPids k k') (hfam : k.Family) {i q : Fin nproc}
    (hq : (k.proc i).parent = some q) : (k'.proc q).pid = (k.proc q).pid :=
  (hkeeps.pid q (hkeeps.active q (hfam.parent_active i q hq))).2

/-- An old child has the parent the books say, however its parent changes hands. -/
theorem KeepsPids.forker (hkeeps : KeepsPids k k') (hfam : k.Family)
    (hforker : ForkerKnown history k) {i q : Fin nproc} {f : Int}
    (hi : (k'.proc i).state ≠ .unused) (hq : (k.proc i).parent = some q)
    (hf : .fork f (k'.proc i).pid ∈ history) :
    (k'.proc q).pid = f ∨ (k'.initproc = some q ∧ .exit f ∈ history) := by
  rw [(hkeeps.pid i hi).2] at hf
  rw [hkeeps.parent_pid hfam hq, hkeeps.initproc]
  exact hforker i q f hq hf

theorem Entry.forkerKnown (h : Entry k k' events) (hfam : k.Family) (hfam' : k'.Family)
    (hnum : k.Numbered) (hnum' : k'.Numbered) (hrec' : Recorded (history ++ events) k')
    (hforker : ForkerKnown history k) :
    ForkerKnown (history ++ events) k' := by
  intro i q f hq hf
  have hi : (k'.proc i).state ≠ .unused := by
    intro hunused
    rw [hfam'.parent_unused i hunused] at hq
    cases hq
  cases h with
  | quiet hkeeps hquiet hparent =>
      rcases hparent i q hq with hold | hembryo
      · rcases List.mem_append.mp hf with hf | hf
        · apply (hkeeps.forker hfam hforker hi hold hf).imp_right
          exact And.imp_right (List.mem_append_left _)
        · have hpos := hnum'.pid_pos i hi
          have hfail : (k'.proc i).pid = -1 := hquiet _ hf
          omega
      · exact absurd hf (hrec'.embryo_unforked i f hembryo)
  | @alloc np hnp _ hpid hinit hparent hothers =>
      rw [hparent] at hq
      have hi' : i ≠ np := by
        intro heq
        rw [heq, hfam.parent_unused np hnp] at hq
        cases hq
      have hq' : q ≠ np := by
        intro heq
        have hactive := hfam.parent_active i q hq
        rw [heq, hnp] at hactive
        simp [ProcState.Active] at hactive
      rw [(hothers i hi').1] at hf
      rw [(hothers q hq').1]
      have hf' : .fork f (k.proc i).pid ∈ history := by simpa using hf
      rcases hforker i q f hq hf' with heq | ⟨hq, hexit⟩
      · exact .inl heq
      · rcases hinit with hnone | hsame
        · rw [hq] at hnone
          cases hnone
        · exact .inr ⟨hsame.trans hq, List.mem_append_left _ hexit⟩
  | @fork p np hkeeps hnp hnp' hchild hparent =>
      rw [hparent] at hq
      rcases List.mem_append.mp hf with hf | hf
      · apply (hkeeps.forker hfam hforker hi hq hf).imp_right
        exact And.imp_right (List.mem_append_left _)
      · -- the child announced is `np`, whose parent calls `fork`
        obtain ⟨hold, hpid⟩ := hkeeps.pid i hi
        simp only [List.mem_singleton, Event.fork.injEq] at hf
        have hinp : i = np := by
          apply hnum.pid_injective i np hold
          · rw [hnp]
            exact ProcState.noConfusion
          · rw [← hpid, hf.2]
        rw [hinp, hchild] at hq
        cases hq
        exact .inl ((hkeeps.parent_pid hfam hchild).trans hf.1.symm)
  | @exit p hkeeps hinit hparent =>
      have hf' : .fork f (k'.proc i).pid ∈ history := by simpa using hf
      rw [hparent] at hq
      split at hq
      next hchild =>
        -- the child of `p` goes to `initproc`
        have hold := hkeeps.forker hfam hforker hi hchild hf'
        rw [hkeeps.parent_pid hfam hchild, hkeeps.initproc] at hold
        rcases hold with heq | ⟨hp, -⟩
        · refine .inr ⟨hkeeps.initproc.trans hq, ?_⟩
          simp [heq]
        · exact absurd hp hinit
      next =>
        apply (hkeeps.forker hfam hforker hi hq hf').imp_right
        exact And.imp_right (List.mem_append_left _)
  | reap hkeeps hz hz' hchild hparent =>
      have hf' : .fork f (k'.proc i).pid ∈ history := by simpa using hf
      apply (hkeeps.forker hfam hforker hi (hparent i q hq) hf').imp_right
      exact And.imp_right (List.mem_append_left _)

/-- Where an element of an extended history stands. -/
theorem append_eq_append_cons {α : Type*} {x : α} {l ext first last : List α}
    (h : l ++ ext = first ++ x :: last) :
    (∃ rest, l = first ++ x :: rest) ∨
      ∃ before after, ext = before ++ x :: after ∧ first = l ++ before := by
  rcases List.append_eq_append_iff.mp h with ⟨before, hfirst, hext⟩ | ⟨rest, hl, hrest⟩
  · exact .inr ⟨before, last, hext, hfirst⟩
  · cases rest with
    | nil => exact .inr ⟨[], last, by simpa using hrest.symm, by simpa using hl.symm⟩
    | cons y ys =>
        simp only [List.cons_append, List.cons.injEq] at hrest
        exact .inl ⟨ys, by rw [hl, hrest.1]⟩

/-- A pid is announced by `fork` before it is reaped. -/
theorem Entry.fork_mem (h : Entry k k' events) (hrec : Recorded history k) {w n f : Int}
    (hn : n ≠ -1) (hw : .wait w n ∈ history) (hf : .fork f n ∈ history ++ events) :
    .fork f n ∈ history := by
  rcases List.mem_append.mp hf with hf | hf
  · exact hf
  · cases h with
    | quiet hkeeps hquiet hparent => exact absurd (hquiet _ hf) hn
    | @fork p np hkeeps hnp hnp' hchild hparent =>
        simp only [List.mem_singleton, Event.fork.injEq] at hf
        rw [hf.2] at hw
        have hlive := hrec.live_unwaited np w (by rw [hnp]; exact ProcState.noConfusion)
        exact absurd hw hlive
    | _ => simp at hf

theorem Entry.init_pid (h : Entry k k' events) (hfam : k.Family) {r : Fin nproc}
    (hr : k.initproc = some r) :
    k'.initproc = some r ∧ (k'.proc r).pid = (k.proc r).pid := by
  have hactive := hfam.init_active r hr
  have hkeep : KeepsPids k k' → k'.initproc = some r ∧ (k'.proc r).pid = (k.proc r).pid :=
    fun hkeeps => ⟨hkeeps.initproc.trans hr, (hkeeps.pid r (hkeeps.active r hactive)).2⟩
  cases h with
  | quiet hkeeps => exact hkeep hkeeps
  | fork hkeeps => exact hkeep hkeeps
  | exit hkeeps => exact hkeep hkeeps
  | reap hkeeps => exact hkeep hkeeps
  | @alloc np hnp _ _ hinit _ hothers =>
      have hne : r ≠ np := by
        intro heq
        rw [heq, hnp] at hactive
        simp [ProcState.Active] at hactive
      refine ⟨?_, (hothers r hne).1⟩
      rcases hinit with hnone | hsame
      · rw [hr] at hnone
        cases hnone
      · exact hsame.trans hr

theorem Entry.reaperRight (h : Entry k k' events) (hfam : k.Family)
    (hrec : Recorded history k) (hforker : ForkerKnown history k)
    (hreaper : ReaperRight history k) : ReaperRight (history ++ events) k' := by
  intro first last w n f heq hn hf
  rcases append_eq_append_cons heq with ⟨rest, hold⟩ | ⟨before, after, hnew, hfirst⟩
  · have hw : .wait w n ∈ history := by simp [hold]
    have hf' := h.fork_mem hrec hn hw hf
    apply (hreaper first rest w n f hold hn hf').imp_right
    rintro ⟨⟨r, hr, hpid⟩, hexit⟩
    obtain ⟨hr', hpid'⟩ := h.init_pid hfam hr
    exact ⟨⟨r, hr', hpid'.trans hpid⟩, hexit⟩
  · have hw : .wait w n ∈ events := by simp [hnew]
    have hentry := h
    cases h with
    | quiet hkeeps hquiet hparent => exact absurd (hquiet _ hw) hn
    | @reap p i hkeeps hz hz' hchild hparent =>
        -- the caller is the parent the books know
        simp only [List.mem_singleton, Event.wait.injEq] at hw
        obtain ⟨hbefore, -⟩ : before = [] ∧ _ := by
          simpa [List.singleton_eq_append_iff] using hnew
        rw [hfirst, hbefore, List.append_nil, hw.1]
        have hf' : .fork f (k.proc i).pid ∈ history := by simpa [hw.2] using hf
        rcases hforker i p f hchild hf' with hp | ⟨hp, hexit⟩
        · exact .inl hp
        · obtain ⟨hp', hpid⟩ := hentry.init_pid hfam hp
          exact .inr ⟨⟨p, hp', hpid⟩, hexit⟩
    | _ => simp at hw

/-- Everything the history says about pids, while `nextpid` has not wrapped. -/
structure Books (history : List (Event nproc)) (k : State nproc ncpu) : Prop where
  nextpid_eq : k.nextpid = 1 + allocs history
  numbered : k.Numbered
  recorded : Recorded history k
  reapedOnce : ReapedOnce history
  forkerKnown : ForkerKnown history k
  reaperRight : ReaperRight history k

theorem boot_books : Books [] (.boot nproc ncpu) := by
  refine ⟨rfl, ?_, ?_, ?_, ?_, ?_⟩
  · constructor <;> simp [boot, Proc.zero]
  · constructor <;> simp
  · simp [ReapedOnce]
  · simp [ForkerKnown]
  · simp [ReaperRight]

theorem Effect.books (h : Effect k a k' events) (hk : k.Consistent) (hfam : k.Family)
    (hbooks : Books history k) (hle : allocs (history ++ events) < 2 ^ 31 - 1) :
    Books (history ++ events) k' := by
  have hentry := h.entry hk hfam
  have hfam' := h.family hk hfam
  rw [allocs_append] at hle
  obtain ⟨hcount, hnum, hrec, honce, hforker, hreaper⟩ := hbooks
  have hpos : 1 ≤ k.nextpid := by omega
  have hnext := hentry.nextpid_eq hpos (by unfold intMax; omega)
  have hnum' := hentry.numbered hnum hpos hnext
  have hrec' := hentry.recorded hnum hnext hpos hrec
  refine ⟨?_, hnum', hrec', hentry.reapedOnce hrec honce,
    hentry.forkerKnown hfam hfam' hnum hnum' hrec' hforker,
    hentry.reaperRight hfam hrec hforker hreaper⟩
  rw [hnext, hcount, allocs_append, Nat.cast_add]
  omega

theorem books_of_reach {ok : State nproc ncpu → Action nproc ncpu → Prop}
    (h : Reach State.step ok (.boot nproc ncpu) history k)
    (hallocs : allocs history < 2 ^ 31 - 1) : Books history k := by
  have hinv := reach_invariant
    (fun history k => k.Consistent ∧ k.Family ∧
      (allocs history < 2 ^ 31 - 1 → Books history k))
    ⟨boot_consistent, boot_family, fun _ => boot_books⟩ ?_ h
  · exact hinv.2.2 hallocs
  · intro history k a k' events hk _ heffect
    refine ⟨heffect.consistent hk.1, heffect.family hk.1 hk.2.1, ?_⟩
    intro hlt
    have hold : allocs history < 2 ^ 31 - 1 := by
      rw [allocs_append] at hlt
      omega
    exact heffect.books hk.1 hk.2.1 (hk.2.2 hold) hlt

/-- In every run with fewer than 2^31 - 1 slot allocations the pids in use are
distinct and between 1 and `nextpid`, and a pid returned by `fork` is returned
by at most one `wait`: that of the process that forked it, or of `initproc`
after the forker's exit. -/
theorem reaped_once_by_forker
    (h : Reach State.step anyStep (.boot nproc ncpu) history k)
    (hallocs : allocs history < 2 ^ 31 - 1) :
    (∀ i j, i ≠ j → (k.proc i).state ≠ .unused → (k.proc j).state ≠ .unused →
      (k.proc i).pid ≠ (k.proc j).pid) ∧
    (∀ i, (k.proc i).state ≠ .unused → 1 ≤ (k.proc i).pid ∧ (k.proc i).pid < k.nextpid) ∧
    ∀ f n, .fork f n ∈ history → n ≠ -1 →
      history.countP (Event.reaps n) ≤ 1 ∧
      ∀ first last w, history = first ++ .wait w n :: last →
        w = f ∨ ((∃ r, k.initproc = some r ∧ (k.proc r).pid = w) ∧ .exit f ∈ first) := by
  have hbooks := books_of_reach h hallocs
  refine ⟨?_, ?_, ?_⟩
  · intro i j hij hi hj heq
    exact hij (hbooks.numbered.pid_injective i j hi hj heq)
  · intro i hi
    exact ⟨hbooks.numbered.pid_pos i hi, hbooks.numbered.pid_lt i hi⟩
  · intro f n hf hn
    refine ⟨hbooks.reapedOnce n hn, ?_⟩
    intro first last w heq
    exact hbooks.reaperRight first last w n f heq hn hf

/-- `initproc` (pid 1) forks a process with pid 2 that forks one with pid 3 and
exits; both children end up with `initproc`. -/
def orphan (c d : Fin ncpu) : List (Action nproc ncpu) :=
  [.userinit, .scheduler c 0, .forkAlloc c, .forkKalloc c true, .forkCopy c true, .forkFinish c,
    .scheduler d 0, .forkAlloc d, .forkKalloc d true, .forkCopy d true, .forkFinish d, .exit d,
    .scheduler d 0, .exit d, .wait c, .wait c]

theorem orphan_isSome : (run State.step (.boot 3 2) (orphan 0 1)).isSome := by decide +kernel

theorem reaped_once_by_forker_orphan : ∃ history k,
    Reach State.step anyStep (.boot 3 2) history k ∧ .fork 2 3 ∈ history ∧
      .wait 1 3 ∈ history ∧ history.countP (Event.reaps 3) ≤ 1 := by
  have hreach := Reach.of_isSome (orphan 0 1) (admitted_anyStep _ _) orphan_isSome
  have hfork : .fork 2 3 ∈ ((run State.step (.boot 3 2) (orphan 0 1)).get orphan_isSome).2 := by
    decide +kernel
  refine ⟨_, _, hreach, hfork, by decide +kernel, ?_⟩
  exact ((reaped_once_by_forker hreach (by decide +kernel)).2.2 2 3 hfork (by decide)).1

end OsCourse.Kernel
