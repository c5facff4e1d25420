import OsCourse.Kernel.Cpus
import OsCourse.Kernel.Locking
import OsCourse.Lib.Mutex

/-! # Critical sections are atomic

What the kernel does under its lock looks from outside as if it happened at
once. A process that the scheduler has switched to counts as RUNNABLE until it
has done what comes before its release of the lock, and one that is about to
call `sched` has left its CPU already; seen in this way every run with the
lock is a run of the kernel whose critical sections are single steps.
-/

namespace OsCourse.Kernel

open MachineInt Mutex Transition

variable {nproc ncpu : Nat}

namespace State

variable (k : State nproc ncpu)

@[simp] theorem setForking_state (p : Fin nproc) (stage : Option (Fin nproc × ForkStage))
    (q : Fin nproc) : ((k.setForking p stage).proc q).state = (k.proc q).state :=
  k.setProc_keeps Proc.state (by rfl) q

@[simp] theorem setForking_forking (p : Fin nproc) (stage : Option (Fin nproc × ForkStage))
    (q : Fin nproc) :
    ((k.setForking p stage).proc q).forking = if q = p then stage else (k.proc q).forking := by
  rw [setForking, setProc_proc]
  split <;> rfl

@[simp] theorem allocSlot_state (np q : Fin nproc) :
    ((k.allocSlot np).proc q).state = if q = np then .embryo else (k.proc q).state := by
  simp only [allocSlot, setProc_proc]
  split <;> rfl

@[simp] theorem allocSlot_forking (np q : Fin nproc) :
    ((k.allocSlot np).proc q).forking = (k.proc q).forking :=
  k.setProc_keeps Proc.forking (by rfl) q

end State

namespace LockState

variable (l : LockState nproc ncpu)

/-- The thread of `q` is the one that a CPU executes. -/
def OnCpu (q : Fin nproc) : Prop := ∃ c winner, l.mode c = .running winner q

/-- A slot as one critical section leaves it and the next finds it. -/
def seenProc : Table nproc := fun q =>
  if (l.kernel.proc q).state = .running ∧ l.place q = .returning then
    { l.kernel.proc q with state := .runnable }
  else l.kernel.proc q

/-- The process of a CPU, between its first release of the lock and its call of `sched`. -/
def seenCpu (c : Fin ncpu) : Option (Fin nproc) :=
  match l.mode c with
  | .running _ p => if l.place p = .calling ∨ l.place p = .returning then none else some p
  | _ => none

/-- The state of the kernel whose critical sections are single steps. -/
def atomic : State nproc ncpu := { l.kernel with proc := l.seenProc, cpu := l.seenCpu }

end LockState

/-- The thread is inside a critical section. -/
def Place.Locked : Place nproc → Prop
  | .free | .acquiring _ => False
  | _ => True

/-- CPU `c` is inside a critical section, in its scheduler or in a thread. -/
def LockState.Holds (l : LockState nproc ncpu) (c : Fin ncpu) : Prop :=
  match l.mode c with
  | .idle | .acquiring _ => False
  | .running _ p => (l.place p).Locked
  | _ => True

/-- The variables of the lottery agree with the table. -/
def LockState.Draws (l : LockState nproc ncpu) (c : Fin ncpu) : Prop :=
  match l.mode c with
  | .summing rest num => sumLoop l.seenProc rest num = numTickets l.seenProc
  | .picking winner rest counter => pickLoop l.seenProc winner rest counter = pick l.seenProc winner
  | .switching winner p => pick l.seenProc winner = some p
  | .running winner p => l.place p = .returning → pick l.seenProc winner = some p
  | _ => True

/-- A thread that waits for its turn is behind `sched` or in `forkret`; one that
calls `sched` has changed its state. -/
structure LockState.SlotRight (l : LockState nproc ncpu) (q : Fin nproc) : Prop where
  parked : (l.kernel.proc q).state = .runnable ∨ (l.kernel.proc q).state = .sleeping →
    l.place q = .calling ∨ l.place q = .returning
  returning : l.place q = .returning → ((l.kernel.proc q).state = .running ↔ l.OnCpu q)
  calling : l.place q = .calling → l.OnCpu q ∧ ((l.kernel.proc q).state = .runnable ∨
    (l.kernel.proc q).state = .sleeping ∨ (l.kernel.proc q).state = .zombie)

/-- What holds in every state: the CPU that is inside a critical section has the
lock, and the lottery is about the table as it is. -/
structure LockState.Coherent (l : LockState nproc ncpu) : Prop where
  lock : Guards l.lock l.Holds
  slots : ∀ q, l.SlotRight q
  child : ∀ p np stage, (l.kernel.proc p).forking = some (np, stage) → stage ≠ .allocated →
    l.place np = .returning
  admits : ∀ p r, l.place p = .acquiring r ∨ l.place p = .holding r → l.Admits p r
  draws : ∀ c, l.Draws c

namespace LockState

variable {l : LockState nproc ncpu}

@[simp] theorem atomic_proc : l.atomic.proc = l.seenProc := rfl

@[simp] theorem atomic_cpu : l.atomic.cpu = l.seenCpu := rfl

@[simp] theorem atomic_initproc : l.atomic.initproc = l.kernel.initproc := rfl

@[simp] theorem atomic_nextpid : l.atomic.nextpid = l.kernel.nextpid := rfl

theorem atomic_eq {k : State nproc ncpu} (hproc : ∀ q, l.seenProc q = k.proc q)
    (hcpu : ∀ c, l.seenCpu c = k.cpu c) (hinit : l.kernel.initproc = k.initproc)
    (hnext : l.kernel.nextpid = k.nextpid) : l.atomic = k := by
  obtain ⟨proc, cpu, initproc, nextpid⟩ := k
  exact congr (congr (congr (congrArg State.mk (funext hproc)) (funext hcpu)) hinit) hnext

theorem seenProc_of_place {q : Fin nproc} (h : l.place q ≠ .returning) :
    l.seenProc q = l.kernel.proc q :=
  if_neg fun hq => h hq.2

theorem seenProc_of_state {q : Fin nproc} (h : (l.kernel.proc q).state ≠ .running) :
    l.seenProc q = l.kernel.proc q :=
  if_neg fun hq => h hq.1

/-- Only the state of a slot is ever seen to be another one. -/
theorem seenProc_keeps {α : Type*} (f : Proc nproc → α)
    (hf : ∀ (p : Proc nproc) state, f { p with state := state } = f p) (q : Fin nproc) :
    f (l.seenProc q) = f (l.kernel.proc q) := by
  unfold seenProc
  split
  next => exact hf _ _
  next => rfl

theorem seenCpu_eq_some {c : Fin ncpu} {p : Fin nproc} :
    l.seenCpu c = some p ↔ (∃ winner, l.mode c = .running winner p) ∧ l.place p ≠ .calling ∧
      l.place p ≠ .returning := by
  unfold seenCpu
  split
  next winner q hmode =>
    constructor
    · intro h
      split at h
      next => cases h
      next hplace =>
        cases h
        exact ⟨⟨winner, hmode⟩, fun hq => hplace (.inl hq), fun hq => hplace (.inr hq)⟩
    · rintro ⟨⟨winner', hmode'⟩, hcalling, hreturning⟩
      cases hmode.symm.trans hmode'
      rw [if_neg (not_or.mpr ⟨hcalling, hreturning⟩)]
  next hmode =>
    constructor
    · intro h
      cases h
    · rintro ⟨⟨winner, hmode'⟩, -⟩
      exact absurd hmode' (hmode winner p)

namespace Coherent

variable (h : l.Coherent)
include h

/-- At most one CPU is inside a critical section. -/
theorem exclusive {c d : Fin ncpu} (hc : l.Holds c) (hd : l.Holds d) : c = d :=
  h.lock.exclusive hc hd

/-- No thread is behind `sched` on another CPU. -/
theorem seenProc_eq {c : Fin ncpu} (hc : l.Holds c)
    (hmode : ∀ winner p, l.mode c = .running winner p → l.place p ≠ .returning) :
    l.seenProc = l.kernel.proc := by
  funext q
  by_cases hq : (l.kernel.proc q).state = .running ∧ l.place q = .returning
  · obtain ⟨d, winner, hd⟩ := ((h.slots q).returning hq.2).mp hq.1
    have hdc : d = c := h.exclusive (by simp [Holds, hd, hq.2, Place.Locked]) hc
    exact absurd hq.2 (hmode winner q (hdc ▸ hd))
  · exact if_neg hq

theorem apart (hk : l.atomic.Consistent) {c d : Fin ncpu} {p : Fin nproc} {w w' : Int}
    (hc : l.mode c = .running w p) (hd : l.mode d = .running w' p) : c = d := by
  by_cases hplace : l.place p = .calling ∨ l.place p = .returning
  · -- both CPUs would be inside a critical section
    have hlocked : (l.place p).Locked := by
      rcases hplace with heq | heq <;> rw [heq] <;> trivial
    exact h.exclusive (by simpa [Holds, hc] using hlocked) (by simpa [Holds, hd] using hlocked)
  · rw [not_or] at hplace
    exact hk.cpu_injective c d p (seenCpu_eq_some.mpr ⟨⟨w, hc⟩, hplace⟩)
      (seenCpu_eq_some.mpr ⟨⟨w', hd⟩, hplace⟩)

/-- The process of a CPU is RUNNING, unless it is about to call `sched`. -/
theorem running_of_mode (hk : l.atomic.Consistent) {c : Fin ncpu} {p : Fin nproc} {w : Int}
    (hc : l.mode c = .running w p) (hplace : l.place p ≠ .calling) :
    (l.kernel.proc p).state = .running := by
  by_cases hreturning : l.place p = .returning
  · exact ((h.slots p).returning hreturning).mpr ⟨c, w, hc⟩
  · have hseen := hk.running_of_cpu c p (seenCpu_eq_some.mpr ⟨⟨w, hc⟩, hplace, hreturning⟩)
    rwa [atomic_proc, seenProc_of_place hreturning] at hseen

/-- An EMBRYO or UNUSED slot is not on a CPU. -/
theorem not_onCpu (hk : l.atomic.Consistent) {q : Fin nproc}
    (hq : (l.kernel.proc q).state = .embryo ∨ (l.kernel.proc q).state = .unused) :
    ¬ l.OnCpu q := by
  rintro ⟨c, w, hc⟩
  by_cases hplace : l.place q = .calling
  · obtain ⟨-, hstate⟩ := (h.slots q).calling hplace
    rcases hq with hq | hq <;> rw [hq] at hstate <;> simp at hstate
  · have hrunning := h.running_of_mode hk hc hplace
    rcases hq with hq | hq <;> rw [hq] at hrunning <;> cases hrunning

end Coherent

/-! ## What a step leaves as it is -/

section Same

variable {l' : LockState nproc ncpu}

theorem admits_congr {p : Fin nproc} {r : Request nproc}
    (hforking : (l'.kernel.proc p).forking = (l.kernel.proc p).forking)
    (hinit : l'.kernel.initproc = some p → l.kernel.initproc = some p) (h : l.Admits p r) :
    l'.Admits p r := by
  cases r with
  | exit => exact ⟨hforking.trans h.1, fun heq => h.2 (hinit heq)⟩
  | forkFinish =>
      obtain ⟨np, hnp⟩ := h
      exact ⟨np, hforking.trans hnp⟩
  | wakeup => trivial
  | yield => trivial
  | forkAlloc => exact hforking.trans h
  | wait => exact hforking.trans h
  | sleep => exact hforking.trans h
  | kill => exact hforking.trans h

theorem SlotRight.congr {q : Fin nproc} (h : l.SlotRight q)
    (hstate : (l'.kernel.proc q).state = (l.kernel.proc q).state)
    (hplace : l'.place q = l.place q) (hon : l'.OnCpu q ↔ l.OnCpu q) : l'.SlotRight q := by
  obtain ⟨hparked, hreturning, hcalling⟩ := h
  constructor
  · rw [hstate, hplace]
    exact hparked
  · rw [hstate, hplace, hon]
    exact hreturning
  · rw [hstate, hplace, hon]
    exact hcalling

/-- CPU `d` and its process are where they were. -/
structure SameSpot (l l' : LockState nproc ncpu) (d : Fin ncpu) : Prop where
  mode : l'.mode d = l.mode d
  place : ∀ w q, l.mode d = .running w q → l'.place q = l.place q

theorem SameSpot.holds {d : Fin ncpu} (h : SameSpot l l' d) : l'.Holds d ↔ l.Holds d := by
  unfold Holds
  rw [h.mode]
  split
  next => rfl
  next => rfl
  next w q hd => rw [h.place w q hd]
  next => rfl

theorem SameSpot.seenCpu {d : Fin ncpu} (h : SameSpot l l' d) : l'.seenCpu d = l.seenCpu d := by
  unfold LockState.seenCpu
  rw [h.mode]
  split
  next w q hd => rw [h.place w q hd]
  next => rfl

/-- The RUNNABLE slots are the same, with the same tickets. -/
def SameLottery (t t' : Table nproc) : Prop :=
  ∀ q, ((t' q).state = .runnable ↔ (t q).state = .runnable) ∧
    ((t q).state = .runnable → (t' q).tickets = (t q).tickets)

theorem SameLottery.sumLoop_eq {t t' : Table nproc} (h : SameLottery t t')
    (slots : List (Fin nproc)) (num : Int) : sumLoop t' slots num = sumLoop t slots num := by
  induction slots generalizing num with
  | nil => rfl
  | cons q rest ih =>
      obtain ⟨hstate, htickets⟩ := h q
      unfold sumLoop
      by_cases hq : (t q).state = .runnable
      · rw [if_pos (hstate.mpr hq), if_pos hq, htickets hq, ih]
      · rw [if_neg (mt hstate.mp hq), if_neg hq, ih]

theorem SameLottery.pickLoop_eq {t t' : Table nproc} (h : SameLottery t t') (winner : Int)
    (slots : List (Fin nproc)) (counter : Int) :
    pickLoop t' winner slots counter = pickLoop t winner slots counter := by
  induction slots generalizing counter with
  | nil => rfl
  | cons q rest ih =>
      obtain ⟨hstate, htickets⟩ := h q
      unfold pickLoop
      by_cases hq : (t q).state = .runnable
      · rw [if_neg (not_not_intro (hstate.mpr hq)), if_neg (not_not_intro hq), htickets hq]
        simp only [ih]
      · rw [if_pos (mt hstate.mp hq), if_pos hq, ih]

theorem SameSpot.draws {d : Fin ncpu} (h : SameSpot l l' d)
    (hlottery : SameLottery l.seenProc l'.seenProc) (hd : l.Draws d) : l'.Draws d := by
  unfold Draws at hd ⊢
  unfold numTickets pick at hd ⊢
  rw [h.mode]
  simp only [hlottery.sumLoop_eq, hlottery.pickLoop_eq]
  cases hmode : l.mode d with
  | running w q => simpa [hmode, h.place w q hmode] using hd
  | _ =>
      rw [hmode] at hd
      exact hd

/-- A CPU outside the critical sections has no draw. -/
theorem draws_of_not_holds {d : Fin ncpu} (h : ¬ l.Holds d) : l.Draws d := by
  unfold Holds at h
  unfold Draws
  cases hmode : l.mode d with
  | running w q =>
      intro hplace
      simp [hmode, hplace, Place.Locked] at h
  | idle => trivial
  | switched => trivial
  | releasing => trivial
  | acquiring chan => trivial
  | waking chan => trivial
  | summing rest num => simp [hmode] at h
  | picking winner rest counter => simp [hmode] at h
  | switching winner q => simp [hmode] at h

theorem onCpu_congr {c : Fin ncpu} {q : Fin nproc}
    (hothers : ∀ d, d ≠ c → l'.mode d = l.mode d)
    (hc : (∃ w, l'.mode c = .running w q) ↔ ∃ w, l.mode c = .running w q) :
    l'.OnCpu q ↔ l.OnCpu q := by
  constructor
  · rintro ⟨d, w, hd⟩
    by_cases hdc : d = c
    · obtain ⟨w', hc'⟩ := hc.mp ⟨w, hdc ▸ hd⟩
      exact ⟨c, w', hc'⟩
    · exact ⟨d, w, hothers d hdc ▸ hd⟩
  · rintro ⟨d, w, hd⟩
    by_cases hdc : d = c
    · obtain ⟨w', hc'⟩ := hc.mpr ⟨w, hdc ▸ hd⟩
      exact ⟨c, w', hc'⟩
    · exact ⟨d, w, (hothers d hdc).trans hd⟩

theorem Coherent.lock_of_pass (h : l.Coherent) {c : Fin ncpu}
    (hpass : Pass l.lock l'.lock l.Holds l'.Holds c)
    (hothers : ∀ d, d ≠ c → SameSpot l l' d) : Guards l'.lock l'.Holds :=
  h.lock.pass hpass fun d hdc => (hothers d hdc).holds

/-- A step of CPU `c` that is not seen from outside: at most the slot of one
process changes, and is seen as before. -/
theorem Coherent.silent (h : l.Coherent) {c : Fin ncpu} {p : Option (Fin nproc)}
    (hothers : ∀ d, d ≠ c → SameSpot l l' d) (hpass : Pass l.lock l'.lock l.Holds l'.Holds c)
    (hplace : ∀ q, p ≠ some q → l'.place q = l.place q)
    (hproc : ∀ q, p ≠ some q → l'.kernel.proc q = l.kernel.proc q)
    (hon : ∀ q, p ≠ some q → (l'.OnCpu q ↔ l.OnCpu q))
    (hinit : l'.kernel.initproc = l.kernel.initproc)
    (hnext : l'.kernel.nextpid = l.kernel.nextpid)
    (hslot : ∀ q, p = some q → l'.SlotRight q ∧ l'.seenProc q = l.seenProc q ∧
      (l.place q = .returning → l'.place q = .returning) ∧
        ∀ r, l'.place q = .acquiring r ∨ l'.place q = .holding r → l.Admits q r)
    (hcpu : l'.seenCpu c = l.seenCpu c) (hdraws : l'.Draws c) :
    l'.Coherent ∧ l'.atomic = l.atomic := by
  have hseen : ∀ q, l'.seenProc q = l.seenProc q := by
    intro q
    by_cases hq : p = some q
    · exact (hslot q hq).2.1
    · unfold seenProc
      rw [hproc q hq, hplace q hq]
  have hforking : ∀ q, (l'.kernel.proc q).forking = (l.kernel.proc q).forking := by
    intro q
    rw [← seenProc_keeps (l := l') Proc.forking (fun _ _ => rfl), hseen,
      seenProc_keeps Proc.forking fun _ _ => rfl]
  have hcpus : ∀ d, l'.seenCpu d = l.seenCpu d := by
    intro d
    by_cases hdc : d = c
    · exact hdc ▸ hcpu
    · exact (hothers d hdc).seenCpu
  refine ⟨⟨h.lock_of_pass hpass hothers, ?_, ?_, ?_, ?_⟩, atomic_eq hseen hcpus hinit hnext⟩
  · intro q
    by_cases hq : p = some q
    · exact (hslot q hq).1
    · exact (h.slots q).congr (by rw [hproc q hq]) (hplace q hq) (hon q hq)
  · intro q np stage hfork hstage
    have hnp := h.child q np stage (hforking q ▸ hfork) hstage
    by_cases heq : p = some np
    · exact (hslot np heq).2.2.1 hnp
    · rw [hplace np heq, hnp]
  · intro q r hq
    refine admits_congr (hforking q) (fun heq => hinit ▸ heq) ?_
    by_cases heq : p = some q
    · exact (hslot q heq).2.2.2 r hq
    · exact h.admits q r (by rwa [hplace q heq] at hq)
  · intro d
    by_cases hdc : d = c
    · exact hdc ▸ hdraws
    · refine (hothers d hdc).draws (fun q => ?_) (h.draws d)
      rw [hseen q]
      exact ⟨Iff.rfl, fun _ => rfl⟩

end Same

/-! ## Steps that are not seen -/

/-- A step of the scheduler of CPU `c`. -/
theorem Coherent.schedule (h : l.Coherent) {l' : LockState nproc ncpu} {c : Fin ncpu}
    (hothers : ∀ d, d ≠ c → l'.mode d = l.mode d) (hplace : l'.place = l.place)
    (hproc : l'.kernel.proc = l.kernel.proc) (hinit : l'.kernel.initproc = l.kernel.initproc)
    (hnext : l'.kernel.nextpid = l.kernel.nextpid) (hpass : Pass l.lock l'.lock l.Holds l'.Holds c)
    (hold : ∀ w p, l.mode c ≠ .running w p) (hnew : ∀ w p, l'.mode c ≠ .running w p)
    (hdraws : l'.Draws c) : l'.Coherent ∧ l'.atomic = l.atomic := by
  have hnone : ∀ {m : LockState nproc ncpu}, (∀ w p, m.mode c ≠ .running w p) →
      m.seenCpu c = none := by
    intro m hm
    apply Option.eq_none_iff_forall_not_mem.mpr
    intro p hp
    obtain ⟨⟨w, hc⟩, -⟩ := seenCpu_eq_some.mp hp
    exact hm w p hc
  refine h.silent (p := none) (fun d hdc => ⟨hothers d hdc, fun _ q _ => by rw [hplace]⟩) hpass
    (fun q _ => by rw [hplace]) (fun q _ => by rw [hproc]) (fun q _ => ?_) hinit hnext
    (fun q hq => by cases hq) ((hnone hnew).trans (hnone hold).symm) hdraws
  exact onCpu_congr hothers (by simp [hold, hnew])

/-- The thread of `p` on CPU `c` goes on, neither to its call of `sched` nor from it. -/
theorem Coherent.move (h : l.Coherent) (hk : l.atomic.Consistent) {l' : LockState nproc ncpu}
    {c : Fin ncpu} {p : Fin nproc} {w : Int} {place : Place nproc}
    (hc : l.mode c = .running w p) (hkernel : l'.kernel = l.kernel) (hmode : l'.mode = l.mode)
    (hplace : ∀ q, l'.place q = if q = p then place else l.place q)
    (hpass : Pass l.lock l'.lock l.Holds l'.Holds c)
    (hold : l.place p ≠ .calling ∧ l.place p ≠ .returning)
    (hnew : place ≠ .calling ∧ place ≠ .returning)
    (hadmits : ∀ r, place = .acquiring r ∨ place = .holding r → l.Admits p r) :
    l'.Coherent ∧ l'.atomic = l.atomic := by
  have hp : l'.place p = place := by rw [hplace, if_pos rfl]
  have hrunning := h.running_of_mode hk hc hold.1
  have hcpu : ∀ {m : LockState nproc ncpu}, m.mode c = .running w p → m.place p ≠ .calling →
      m.place p ≠ .returning → m.seenCpu c = some p :=
    fun hm hcalling hreturning => seenCpu_eq_some.mpr ⟨⟨w, hm⟩, hcalling, hreturning⟩
  refine h.silent (p := some p) (fun d hdc => ⟨by rw [hmode], fun w' q hd => ?_⟩) hpass
    (fun q hq => ?_) (fun q _ => by rw [hkernel]) (fun q _ => ?_) (by rw [hkernel])
    (by rw [hkernel]) (fun q hq => ?_) ?_ ?_
  · rw [hplace, if_neg fun heq => hdc (h.apart hk (heq ▸ hd) hc)]
  · rw [hplace, if_neg fun heq => hq (by rw [heq])]
  · exact onCpu_congr (c := c) (fun d _ => by rw [hmode]) (by rw [hmode])
  · obtain rfl := Option.some.inj hq
    refine ⟨⟨?_, ?_, ?_⟩, ?_, fun heq => absurd heq hold.2, ?_⟩
    · rw [hkernel, hrunning]
      simp
    · rw [hp]
      exact fun heq => absurd heq hnew.2
    · rw [hp]
      exact fun heq => absurd heq hnew.1
    · rw [seenProc_of_place hold.2, seenProc_of_place (hp ▸ hnew.2), hkernel]
    · rw [hp]
      exact hadmits
  · rw [hcpu hc hold.1 hold.2, hcpu (hmode ▸ hc) (hp ▸ hnew.1) (hp ▸ hnew.2)]
  · unfold Draws
    rw [hmode, hc]
    exact fun heq => absurd (hp ▸ heq) hnew.2

/-- `sched` leaves the thread of `p`. -/
theorem Coherent.switchOut (h : l.Coherent) (hk : l.atomic.Consistent) {c : Fin ncpu}
    {p : Fin nproc} {w : Int} (hc : l.mode c = .running w p) (hp : l.place p = .calling) :
    ((l.setPlace p .returning).setMode c .switched).Coherent ∧
      ((l.setPlace p .returning).setMode c .switched).atomic = l.atomic := by
  have hstate : (l.kernel.proc p).state ≠ .running := by
    intro heq
    have hcalling := ((h.slots p).calling hp).2
    rw [heq] at hcalling
    simp at hcalling
  have hoff : ¬((l.setPlace p .returning).setMode c .switched).OnCpu p := by
    rintro ⟨d, w', hd⟩
    simp only [setMode_mode, setPlace_mode] at hd
    split at hd
    next => cases hd
    next hdc => exact hdc (h.apart hk hd hc)
  refine h.silent (c := c) (p := some p) (fun d hdc => ⟨?_, fun w' q hd => ?_⟩) (.keep rfl ?_)
    (fun q hq => ?_) (fun q _ => rfl) (fun q hq => ?_) rfl rfl (fun q hq => ?_) ?_ ?_
  · simp [hdc]
  · simp [show q ≠ p from fun heq => hdc (h.apart hk (heq ▸ hd) hc)]
  · simp [Holds, hc, hp, Place.Locked]
  · simp [show q ≠ p from fun heq => hq (by rw [heq])]
  · have hqp : p ≠ q := fun heq => hq (by rw [heq])
    exact onCpu_congr (c := c) (fun d hdc => by simp [hdc]) (by simp [hc, hqp])
  · obtain rfl := Option.some.inj hq
    refine ⟨⟨?_, ?_, ?_⟩, ?_, ?_, ?_⟩
    · simp
    · intro _
      simp [hstate, hoff]
    · simp
    · have hseen : l.seenProc p = l.kernel.proc p := seenProc_of_state hstate
      rw [hseen]
      exact seenProc_of_state (by simpa using hstate)
    · simp
    · simp
  · simp [seenCpu, hc, hp]
  · simp [Draws]

/-- The scheduler of CPU `c` switches to `p`. -/
theorem Coherent.switchIn (h : l.Coherent) {c : Fin ncpu} {p : Fin nproc} {w : Int}
    (hc : l.mode c = .switching w p) :
    ((l.setKernel (l.kernel.dispatch c p)).setMode c (.running w p)).Coherent ∧
      ((l.setKernel (l.kernel.dispatch c p)).setMode c (.running w p)).atomic = l.atomic := by
  have hholds : l.Holds c := by simp [Holds, hc]
  have hpick : pick l.seenProc w = some p := by
    simpa [Draws, hc] using h.draws c
  have hstate : (l.kernel.proc p).state = .runnable := by
    rw [← h.seenProc_eq hholds (by simp [hc])]
    exact pick_runnable hpick
  -- a thread at its call of `sched` would hold the lock on another CPU
  have hplace : l.place p = .returning := by
    refine ((h.slots p).parked (.inl hstate)).resolve_left fun hcalling => ?_
    obtain ⟨d, w', hd⟩ := ((h.slots p).calling hcalling).1
    have hdc : d = c := h.exclusive (by simp [Holds, hd, hcalling, Place.Locked]) hholds
    rw [hdc, hc] at hd
    cases hd
  have hproc : ∀ q, (l.kernel.dispatch c p).proc q =
      if q = p then { l.kernel.proc p with state := .running } else l.kernel.proc q := by
    simp [State.dispatch]
  have hseen : ∀ q, ((l.setKernel (l.kernel.dispatch c p)).setMode c (.running w p)).seenProc q =
      l.seenProc q := by
    intro q
    by_cases hqp : q = p
    · subst hqp
      have hseen : l.seenProc q = l.kernel.proc q := seenProc_of_state (by simp [hstate])
      rw [hseen]
      refine (if_pos ?_).trans ?_
      · simp [hproc, hplace]
      · simp only [setMode_kernel, setKernel_kernel, hproc, if_true]
        rw [← hstate]
    · simp [seenProc, hproc, hqp]
  refine h.silent (c := c) (p := some p) (fun d hdc => ⟨?_, fun w' q hd => rfl⟩) (.keep rfl ?_)
    (fun q hq => rfl) (fun q hq => ?_) (fun q hq => ?_) rfl rfl (fun q hq => ?_) ?_ ?_
  · simp [hdc]
  · simp [Holds, hc, hplace, Place.Locked]
  · simp [hproc, show q ≠ p from fun heq => hq (by rw [heq])]
  · have hqp : p ≠ q := fun heq => hq (by rw [heq])
    exact onCpu_congr (c := c) (fun d hdc => by simp [hdc]) (by simp [hc, hqp])
  · obtain rfl := Option.some.inj hq
    refine ⟨⟨?_, ?_, ?_⟩, hseen p, id, ?_⟩
    · simp [hproc]
    · intro _
      have hon : ((l.setKernel (l.kernel.dispatch c p)).setMode c (.running w p)).OnCpu p :=
        ⟨c, w, by simp⟩
      simp [hproc, hon]
    · simp [hplace]
    · simp [hplace]
  · simp [seenCpu, hc, hplace]
  · unfold Draws
    rw [funext hseen]
    simpa using fun _ => hpick

/-! ## Critical sections -/

/-- A write to the table that the critical section of `p` makes: it puts no slot
on a CPU, and what it makes RUNNABLE was asleep or is a new process. -/
structure SectionWrite (l : LockState nproc ncpu) (p : Fin nproc) (k : State nproc ncpu) :
    Prop where
  running : ∀ q, q ≠ p → (k.proc q).state = .running → (l.kernel.proc q).state = .running
  active : ∀ q, q ≠ p → (k.proc q).state = .runnable ∨ (k.proc q).state = .sleeping →
    ((l.kernel.proc q).state = .runnable ∨ (l.kernel.proc q).state = .sleeping) ∨
      l.place q = .returning
  child : ∀ q np stage, (k.proc q).forking = some (np, stage) → stage ≠ .allocated →
    (l.kernel.proc q).forking = some (np, stage)
  forking : ∀ q, q ≠ p → (k.proc q).forking = (l.kernel.proc q).forking
  initproc : k.initproc = l.kernel.initproc

theorem Coherent.write (h : l.Coherent) (hk : l.atomic.Consistent) {c : Fin ncpu}
    {p : Fin nproc} {w : Int} (hc : l.mode c = .running w p) (hp : (l.place p).Locked)
    (hcalling : l.place p ≠ .calling) {k : State nproc ncpu} (hwrite : SectionWrite l p k)
    (place : Place nproc) (hplace : place = .releasing ∧ (k.proc p).state = .running ∨
      place = .calling ∧ ((k.proc p).state = .runnable ∨ (k.proc p).state = .sleeping ∨
        (k.proc p).state = .zombie)) :
    ((l.setKernel k).setPlace p place).Coherent ∧
      ((l.setKernel k).setPlace p place).atomic =
        { k with
          cpu := Function.update l.seenCpu c (if place = .calling then none else some p) } := by
  have hholds : l.Holds c := by simpa [Holds, hc] using hp
  have hne : ∀ q d w', q ≠ p → l.mode d = .running w' q → ¬(l.place q).Locked := by
    intro q d w' hqp hd hq
    have hdc : d = c := h.exclusive (by simpa [Holds, hd] using hq) hholds
    rw [hdc, hc] at hd
    cases hd
    exact hqp rfl
  have hnot : ∀ q, q ≠ p → l.place q ≠ .calling ∧
      (l.place q = .returning → (l.kernel.proc q).state ≠ .running ∧ ¬ l.OnCpu q) := by
    intro q hqp
    constructor
    · intro hq
      obtain ⟨d, w', hd⟩ := ((h.slots q).calling hq).1
      exact hne q d w' hqp hd (by rw [hq]; trivial)
    · intro hq
      have hoff : ¬ l.OnCpu q := by
        rintro ⟨d, w', hd⟩
        exact hne q d w' hqp hd (by rw [hq]; trivial)
      exact ⟨fun heq => hoff (((h.slots q).returning hq).mp heq), hoff⟩
  have hnew : place ≠ .returning := by
    rintro rfl
    simp at hplace
  have hothers : ∀ d, d ≠ c → SameSpot l ((l.setKernel k).setPlace p place) d := by
    intro d hdc
    refine ⟨rfl, fun w' q hd => ?_⟩
    rw [setPlace_place, if_neg fun heq => hdc (h.apart hk (heq ▸ hd) hc)]
    rfl
  have hholds' : ((l.setKernel k).setPlace p place).Holds c := by
    rcases hplace with ⟨rfl, -⟩ | ⟨rfl, -⟩ <;> simp [Holds, hc, Place.Locked]
  constructor
  · refine ⟨h.lock_of_pass (c := c) (.keep rfl (by simp [hholds, hholds'])) hothers,
      fun q => ?_, ?_, ?_, fun d => ?_⟩
    · by_cases hqp : q = p
      · subst hqp
        refine ⟨fun hstate => ?_, ?_, fun _ => ⟨⟨c, w, hc⟩, ?_⟩⟩
        · rcases hplace with ⟨rfl, hrunning⟩ | ⟨rfl, -⟩
          · simp [hrunning] at hstate
          · simp
        · simp [hnew]
        · rcases hplace with ⟨rfl, -⟩ | ⟨rfl, hstate⟩
          · simp_all
          · exact hstate
      · obtain ⟨hnotcalling, hreturning⟩ := hnot q hqp
        refine ⟨fun hstate => ?_, fun hq => ?_, fun hq => ?_⟩
        · rw [setPlace_place, if_neg hqp]
          rcases hwrite.active q hqp hstate with hstate | hq
          · exact (h.slots q).parked hstate
          · exact .inr hq
        · rw [setPlace_place, if_neg hqp] at hq
          obtain ⟨hstate, hoff⟩ := hreturning hq
          exact ⟨fun heq => absurd (hwrite.running q hqp heq) hstate, fun hon => absurd hon hoff⟩
        · rw [setPlace_place, if_neg hqp] at hq
          exact absurd hq hnotcalling
    · intro q np stage hfork hstage
      have hold := hwrite.child q np stage hfork hstage
      have hnp : np ≠ p := by
        rintro rfl
        have hembryo := hk.embryo_of_forking q np stage
          ((seenProc_keeps Proc.forking (fun _ _ => rfl) q).trans hold)
        rw [atomic_proc, seenProc, h.running_of_mode hk hc hcalling] at hembryo
        split at hembryo
        next => cases hembryo
        next => rw [h.running_of_mode hk hc hcalling] at hembryo; cases hembryo
      rw [setPlace_place, if_neg hnp]
      exact h.child q np stage hold hstage
    · intro q r hq
      rw [setPlace_place] at hq
      split at hq
      next => rcases hplace with ⟨rfl, -⟩ | ⟨rfl, -⟩ <;> simp at hq
      next hqp =>
        exact admits_congr (hwrite.forking q hqp) (fun heq => hwrite.initproc ▸ heq)
          (h.admits q r hq)
    · by_cases hdc : d = c
      · subst hdc
        simp [Draws, hc, hnew]
      · exact draws_of_not_holds fun hd => hdc (h.exclusive ((hothers d hdc).holds.mp hd) hholds)
  · refine atomic_eq (fun q => ?_) (fun d => ?_) rfl rfl
    · by_cases hqp : q = p
      · exact seenProc_of_place (by simpa [hqp] using hnew)
      · by_cases hq : l.place q = .returning
        · exact seenProc_of_state fun heq => ((hnot q hqp).2 hq).1 (hwrite.running q hqp heq)
        · exact seenProc_of_place (by simpa [hqp] using hq)
    · dsimp only
      rw [Function.update_apply]
      split
      next hdc =>
        rw [hdc]
        simp [seenCpu, hc, hnew]
      next hdc => exact (hothers d hdc).seenCpu

/-- The table of one kernel with the CPUs of another. -/
def withCpu (k : State nproc ncpu) (cpu : Fin ncpu → Option (Fin nproc)) : State nproc ncpu :=
  { k with cpu := cpu }

@[simp] theorem withCpu_proc (k : State nproc ncpu) (cpu : Fin ncpu → Option (Fin nproc)) :
    (withCpu k cpu).proc = k.proc := rfl

@[simp] theorem withCpu_cpu (k : State nproc ncpu) (cpu : Fin ncpu → Option (Fin nproc)) :
    (withCpu k cpu).cpu = cpu := rfl

@[simp] theorem withCpu_initproc (k : State nproc ncpu) (cpu : Fin ncpu → Option (Fin nproc)) :
    (withCpu k cpu).initproc = k.initproc := rfl

@[simp] theorem withCpu_nextpid (k : State nproc ncpu) (cpu : Fin ncpu → Option (Fin nproc)) :
    (withCpu k cpu).nextpid = k.nextpid := rfl

/-- What the two ends of a critical section of `p` on CPU `c` come to. -/
theorem Coherent.finish (h : l.Coherent) (hk : l.atomic.Consistent) {c : Fin ncpu}
    {p : Fin nproc} {w : Int} (hc : l.mode c = .running w p) (hp : (l.place p).Locked)
    (hcalling : l.place p ≠ .calling) {k : State nproc ncpu} (hwrite : SectionWrite l p k)
    (hrunning : (k.proc p).state = .running) (events : List (Event nproc)) :
    (l.finish p k events).1.Coherent ∧ (l.finish p k events).1.atomic =
      withCpu k (Function.update l.seenCpu c (some p)) :=
  h.write hk hc hp hcalling hwrite .releasing (.inl ⟨rfl, hrunning⟩)

theorem Coherent.toSched (h : l.Coherent) (hk : l.atomic.Consistent) {c : Fin ncpu}
    {p : Fin nproc} {w : Int} (hc : l.mode c = .running w p) (hp : (l.place p).Locked)
    (hcalling : l.place p ≠ .calling) {k : State nproc ncpu} (hwrite : SectionWrite l p k)
    (hstate : (k.proc p).state = .runnable ∨ (k.proc p).state = .sleeping ∨
      (k.proc p).state = .zombie) (events : List (Event nproc)) :
    (l.toSched p k events).1.Coherent ∧ (l.toSched p k events).1.atomic =
      withCpu k (Function.update l.seenCpu c none) :=
  h.write hk hc hp hcalling hwrite .calling (.inr ⟨rfl, hstate⟩)

/-- A write that wakes slots up and frees slots, and leaves the `fork`s alone. -/
theorem SectionWrite.calm {p : Fin nproc} {k : State nproc ncpu}
    (hinit : k.initproc = l.kernel.initproc)
    (hforking : ∀ q, (k.proc q).forking = (l.kernel.proc q).forking)
    (hstate : ∀ q, q ≠ p → (k.proc q).state = (l.kernel.proc q).state ∨
      ((l.kernel.proc q).state = .sleeping ∧ (k.proc q).state = .runnable) ∨
        (k.proc q).state = .unused) : SectionWrite l p k where
  running q hqp hq := by
    rcases hstate q hqp with heq | ⟨-, heq⟩ | heq
    · rwa [heq] at hq
    · rw [heq] at hq
      cases hq
    · rw [heq] at hq
      cases hq
  active q hqp hq := by
    rcases hstate q hqp with heq | ⟨heq, -⟩ | heq
    · rw [heq] at hq
      exact .inl hq
    · exact .inl (.inr heq)
    · rw [heq] at hq
      simp at hq
  child q np stage hfork hstage := hforking q ▸ hfork
  forking q _ := hforking q
  initproc := hinit

/-- A write of `fork`, which takes a slot or starts a process that is in `forkret`. -/
theorem SectionWrite.fork {p : Fin nproc} (np : Fin nproc) {k : State nproc ncpu}
    (hinit : k.initproc = l.kernel.initproc)
    (hstate : ∀ q, q ≠ np → (k.proc q).state = (l.kernel.proc q).state)
    (hnp : (k.proc np).state = .embryo ∨
      (k.proc np).state = .runnable ∧ l.place np = .returning)
    (hforking : ∀ q, q ≠ p → (k.proc q).forking = (l.kernel.proc q).forking)
    (hown : ∀ np stage, (k.proc p).forking = some (np, stage) → stage = .allocated) :
    SectionWrite l p k where
  running q _ hq := by
    by_cases hqn : q = np
    · subst hqn
      rcases hnp with heq | ⟨heq, -⟩ <;> rw [heq] at hq <;> cases hq
    · rwa [hstate q hqn] at hq
  active q _ hq := by
    by_cases hqn : q = np
    · subst hqn
      rcases hnp with heq | ⟨-, hplace⟩
      · simp [heq] at hq
      · exact .inr hplace
    · rw [hstate q hqn] at hq
      exact .inl hq
  child q slot stage hfork hstage := by
    by_cases hqp : q = p
    · exact absurd (hown slot stage (hqp ▸ hfork)) hstage
    · rwa [hforking q hqp] at hfork
  forking := hforking
  initproc := hinit

/-- The table is as it was up to channels. -/
structure SameStates (l : LockState nproc ncpu) (k : State nproc ncpu) : Prop where
  state : ∀ q, (k.proc q).state = (l.kernel.proc q).state
  forking : ∀ q, (k.proc q).forking = (l.kernel.proc q).forking
  initproc : k.initproc = l.kernel.initproc

theorem SameStates.self (l : LockState nproc ncpu) : SameStates l l.kernel :=
  ⟨fun _ => rfl, fun _ => rfl, rfl⟩

theorem SameStates.clearChan (l : LockState nproc ncpu) (p : Fin nproc) :
    SameStates l (l.kernel.clearChan p) :=
  ⟨State.setProc_keeps _ Proc.state rfl, State.setProc_keeps _ Proc.forking rfl, rfl⟩

theorem SameStates.write {k : State nproc ncpu} (h : SameStates l k) (p : Fin nproc) :
    SectionWrite l p k :=
  .calm h.initproc h.forking fun q _ => .inl (h.state q)

/-- Only the slot of `p` is written, and not its `fork`. -/
theorem SameStates.writeOwn {k : State nproc ncpu} (h : SameStates l k) {p : Fin nproc}
    {slot : Proc nproc} (hforking : slot.forking = (k.proc p).forking) :
    SectionWrite l p (k.setProc p slot) := by
  refine .calm h.initproc (fun q => ?_) fun q hqp => .inl ?_
  · rw [State.setProc_keeps k Proc.forking hforking, h.forking]
  · rw [State.setProc_proc, if_neg hqp, h.state]

/-- A turn of the loop of `wait` is the one of the kernel without its lock. -/
theorem Coherent.waitLoop (h : l.Coherent) (hk : l.atomic.Consistent) {c : Fin ncpu}
    {p : Fin nproc} {w : Int} (hc : l.mode c = .running w p) (hp : (l.place p).Locked)
    (hcalling : l.place p ≠ .calling) {k : State nproc ncpu} (hsame : SameStates l k)
    (events : List (Event nproc)) :
    (l.waitLoop p k events).1.Coherent ∧
      ((l.waitLoop p k events).1.atomic, (l.waitLoop p k events).2) =
        (((withCpu k (Function.update l.seenCpu c (some p))).waitTurn c p).1,
          events ++ ((withCpu k (Function.update l.seenCpu c (some p))).waitTurn c p).2) := by
  have hrunning : (k.proc p).state = .running := by
    rw [hsame.state]
    exact h.running_of_mode hk hc hcalling
  rcases hscan : scanChildren k.proc p (List.finRange nproc) false with ⟨_ | i, havekids⟩
  · by_cases hfails : (!havekids || (k.proc p).killed) = true
    · simp only [LockState.waitLoop, State.waitTurn, withCpu, hscan, hfails, if_true]
      obtain ⟨hcoherent, hatomic⟩ := h.finish hk hc hp hcalling (hsame.write p) hrunning
        (events ++ [.wait (k.proc p).pid (-1)])
      refine ⟨hcoherent, ?_⟩
      rw [hatomic]
      simp [LockState.finish, withCpu]
    · simp only [LockState.waitLoop, State.waitTurn, withCpu, hscan, hfails]
      obtain ⟨hcoherent, hatomic⟩ := h.toSched hk hc hp hcalling
        (k := k.park p .sleeping (.proc p) .waitSleep) (hsame.writeOwn rfl)
        (by simp [State.park]) events
      refine ⟨hcoherent, ?_⟩
      simp only [Bool.false_eq_true, if_false]
      rw [hatomic]
      simp [LockState.toSched, withCpu, State.park, State.sched, State.setProc, State.setCpu]
  · have hi := (scanChildren_some p _ _ (congrArg Prod.fst hscan)).2
    have hpi : p ≠ i := by
      rintro rfl
      rw [hrunning] at hi
      cases hi
    have hwrite : SectionWrite l p (k.reap i) := by
      refine .calm hsame.initproc (fun q => ?_) fun q _ => ?_
      · by_cases hqi : q = i
        · simp [State.reap, hqi, hsame.forking]
        · simp [State.reap, hqi, hsame.forking]
      · by_cases hqi : q = i
        · simp [State.reap, hqi]
        · simp [State.reap, hqi, hsame.state]
    simp only [LockState.waitLoop, State.waitTurn, withCpu, hscan]
    obtain ⟨hcoherent, hatomic⟩ := h.finish hk hc hp hcalling hwrite
      (by simpa [State.reap, hpi] using hrunning) (events ++ [.wait (k.proc p).pid (k.proc i).pid])
    refine ⟨hcoherent, ?_⟩
    rw [hatomic]
    simp [LockState.finish, withCpu, State.reap, State.setProc]

/-- The step is one of the kernel whose critical sections are single steps, or is
not seen there. -/
structure Simulated (l : LockState nproc ncpu) (r : LockState nproc ncpu × List (Event nproc)) :
    Prop where
  coherent : r.1.Coherent
  step : (r.1.atomic = l.atomic ∧ r.2 = []) ∨ ∃ a, l.atomic.step a = some (r.1.atomic, r.2)

/-- A critical section is the step of the kernel without its lock. -/
theorem Coherent.section_step (h : l.Coherent) (hk : l.atomic.Consistent) {c : Fin ncpu}
    {p : Fin nproc} {w : Int} {request : Request nproc} (hc : l.mode c = .running w p)
    (hplace : l.place p = .holding request) {r : LockState nproc ncpu × List (Event nproc)}
    (hr : l.section_ c p request = some r) : Simulated l r := by
  have hp : (l.place p).Locked := by rw [hplace]; trivial
  have hcalling : l.place p ≠ .calling := by simp [hplace]
  have hreturning : l.place p ≠ .returning := by simp [hplace]
  have hrunning := h.running_of_mode hk hc hcalling
  have hcpu : l.seenCpu c = some p := seenCpu_eq_some.mpr ⟨⟨w, hc⟩, hcalling, hreturning⟩
  have hself : Function.update l.seenCpu c (some p) = l.seenCpu := by
    rw [← hcpu, Function.update_eq_self]
  have hseen : l.seenProc = l.kernel.proc := by
    refine h.seenProc_eq (c := c) (by simpa [Holds, hc] using hp) fun w' q hq => ?_
    cases hc.symm.trans hq
    exact hreturning
  have hatomic : l.atomic = withCpu l.kernel l.seenCpu :=
    atomic_eq (congrFun hseen) (fun _ => rfl) rfl rfl
  have hadmits := h.admits p request (.inr hplace)
  have hown : ∀ {slot : Proc nproc}, slot.forking = (l.kernel.proc p).forking →
      SectionWrite l p (l.kernel.setProc p slot) := (SameStates.self l).writeOwn
  have hcaller : (l.kernel.proc p).forking = none →
      (withCpu l.kernel l.seenCpu).caller c = some p := by
    intro hfork
    simp [State.caller, withCpu, hcpu, hfork]
  have hfinish : ∀ {k : State nproc ncpu} {events : List (Event nproc)} (a : Action nproc ncpu),
      SectionWrite l p k → (k.proc p).state = .running →
        (withCpu l.kernel l.seenCpu).step a = some (withCpu k l.seenCpu, events) →
          Simulated l (l.finish p k events) := by
    intro k events a hwrite hstate hstep
    obtain ⟨hcoherent, heq⟩ := h.finish hk hc hp hcalling hwrite hstate events
    exact ⟨hcoherent, .inr ⟨a, by rw [hatomic, hstep, heq, hself]; rfl⟩⟩
  have hsched : ∀ {k : State nproc ncpu} {events : List (Event nproc)} (a : Action nproc ncpu),
      SectionWrite l p k → ((k.proc p).state = .runnable ∨ (k.proc p).state = .sleeping ∨
        (k.proc p).state = .zombie) → (withCpu l.kernel l.seenCpu).step a =
          some (withCpu k (Function.update l.seenCpu c none), events) →
            Simulated l (l.toSched p k events) := by
    intro k events a hwrite hstate hstep
    obtain ⟨hcoherent, heq⟩ := h.toSched hk hc hp hcalling hwrite hstate events
    exact ⟨hcoherent, .inr ⟨a, by rw [hatomic, hstep, heq]; rfl⟩⟩
  cases request with
  | forkAlloc =>
      simp only [section_] at hr
      split at hr
      next hfind =>
        cases hr
        refine hfinish (.forkAlloc c) ((SameStates.self l).write p) hrunning ?_
        simp [State.step, hcaller hadmits, hfind]
      next np hfind =>
        cases hr
        have hnp := findUnused_some hfind
        have hne : p ≠ np := by
          rintro rfl
          rw [hrunning] at hnp
          cases hnp
        refine hfinish (.forkAlloc c) ?_ ?_ ?_
        · refine .fork np rfl (fun q hq => ?_) (.inl ?_) (fun q hq => ?_) ?_
          · simp [hq]
          · simp
          · simp [hq]
          · simp
        · simp [hne, hrunning]
        · simp [State.step, hcaller hadmits, hfind]
          rfl
  | forkFinish =>
      obtain ⟨np, hfork⟩ := hadmits
      have hnp := h.child p np .copied hfork (by simp)
      have hne : p ≠ np := by
        rintro rfl
        exact hreturning hnp
      simp only [section_, hfork] at hr
      cases hr
      refine hfinish (.forkFinish c) ?_ ?_ ?_
      · refine .fork np rfl (fun q hq => ?_) (.inr ⟨?_, hnp⟩) (fun q hq => ?_) ?_
        · simp [hq]
        · simp
        · rw [State.setForking_forking, if_neg hq]
          exact State.setProc_keeps _ Proc.forking (by rfl) q
        · simp
      · simp [hne, hrunning]
      · simp [State.step, State.forkingAt, hcpu, hfork]
        rfl
  | exit =>
      obtain ⟨hfork, hinit⟩ := hadmits
      obtain ⟨woken, hwakes, hexit⟩ := l.kernel.exitProc_eq c p
      cases hr
      refine hsched (.exit c) ?_ ?_ ?_
      · refine .calm rfl (fun q => ?_) fun q hqp => ?_
        · simp [hexit, State.exitWith]
        · have hstate : ((l.kernel.exitWith c p woken).proc q).state =
              if woken q then .runnable else (l.kernel.proc q).state := if_neg hqp
          simp only [hexit, hstate]
          split
          next hq => exact .inr (.inl ⟨hwakes.sleeping q hq, rfl⟩)
          next => exact .inl rfl
      · simp [hexit, State.exitWith]
      · simp [State.step, hcaller hfork, hinit]
        rfl
  | wait =>
      cases hr
      obtain ⟨hcoherent, heq⟩ := h.waitLoop hk hc hp hcalling (SameStates.self l) []
      refine ⟨hcoherent, .inr ⟨.wait c, ?_⟩⟩
      rw [hatomic, heq, hself]
      simp [State.step, hcaller hadmits]
  | sleep chan =>
      cases hr
      refine hsched (.sleep c chan) (hown rfl) (by simp [State.park]) ?_
      simp [State.step, hcaller hadmits]
      rfl
  | wakeup chan =>
      cases hr
      refine hfinish (.wakeup chan) ?_ ?_ rfl
      · refine .calm rfl (fun q => ?_) fun q _ => ?_
        · simp [wakeup1_woken]
        · simp only [wakeup1]
          split
          next hq => exact .inr (.inl ⟨hq.1, rfl⟩)
          next => exact .inl rfl
      · simp [wakeup1, hrunning]
  | kill pid =>
      simp only [section_] at hr
      split at hr
      next hfind =>
        cases hr
        refine hfinish (.kill c pid) ((SameStates.self l).write p) hrunning ?_
        simp [State.step, hcaller hadmits, hfind]
      next i hfind =>
        cases hr
        refine hfinish (.kill c pid) ?_ ?_ ?_
        · refine .calm rfl (fun q => ?_) fun q _ => ?_
          · exact State.setProc_keeps _ Proc.forking (by rfl) q
          · by_cases hqi : q = i
            · subst hqi
              by_cases hsleeping : (l.kernel.proc q).state = .sleeping
              · exact .inr (.inl ⟨hsleeping, by simp [State.markKilled, hsleeping]⟩)
              · exact .inl (by simp [State.markKilled, hsleeping])
            · exact .inl (by simp [State.markKilled, hqi])
        · by_cases hpi : p = i
          · subst hpi
            simp [State.markKilled, hrunning]
          · simpa [State.markKilled, hpi] using hrunning
        · simp [State.step, hcaller hadmits, hfind]
          rfl
  | yield =>
      cases hr
      refine hsched (.yield c) (hown rfl) (by simp [State.park]) ?_
      simp [State.step, hcpu]
      rfl

end LockState

end OsCourse.Kernel
