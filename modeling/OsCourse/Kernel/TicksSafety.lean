import Mathlib.Algebra.Order.BigOperators.Group.Finset
import OsCourse.Kernel.Ticks
import OsCourse.Lib.Mutex

/-! # No tick is slept through

A thread that has seen that its time is not up holds `tickslock`, so `ticks`
stays as it is, or it holds `ptable.lock`, so that who changes `ticks` cannot
pass its `wakeup`; when it holds neither it is SLEEPING, and that `wakeup` finds
it. So a thread sleeps only while its time is not up or while a `wakeup` is
still to come, and the two locks never block each other.
-/

namespace OsCourse.Kernel

open Mutex Transition

variable {nproc nenv : Nat}

/-- The thread is between `acquire(&tickslock)` and its release. -/
@[simp] def Sleeper.HoldsTicks : Sleeper → Prop
  | .reading _ | .leaving _ => True
  | .looping _ _ spot =>
      spot = .testing ∨ spot = .checking ∨ spot = .locking ∨ spot = .unlocking
  | _ => False

/-- The thread is between `acquire(&ptable.lock)` and its release. -/
@[simp] def Sleeper.HoldsPtable : Sleeper → Prop
  | .looping _ _ spot => spot = .unlocking ∨ spot = .parking ∨ spot = .tidying
  | _ => False

@[simp] def Waker.HoldsPtable : Waker nproc → Prop
  | .waking _ | .unlocking => True
  | _ => False

namespace TickState

variable (s : TickState nproc nenv)

@[simp] def HoldsTicks : Holder nproc nenv → Prop
  | .inl p => (s.thread p).HoldsTicks
  | .inr e => s.tickslock = some (.inr e)

@[simp] def HoldsPtable : Holder nproc nenv → Prop
  | .inl p => (s.thread p).HoldsPtable
  | .inr e => (s.waker e).HoldsPtable

/-- The thread of `p` is on its way to sleep, or asleep. -/
def Committed (p : Fin nproc) (spot : Spot) : Prop :=
  spot = .checking ∨ spot = .locking ∨ spot = .unlocking ∨ spot = .parking ∨
    spot = .parked ∧ (s.proc p).state = .sleeping

/-- The time of a thread is not up, or `wakeup(&ticks)` is still to come. -/
def Early (n ticks0 : BitVec 32) : Prop :=
  s.ticks - ticks0 < n ∨ ∃ e, s.tickslock = some (.inr e) ∧ s.stale e = true

/-- What holds in every state. -/
structure Right : Prop where
  tickslock : Guards s.tickslock s.HoldsTicks
  ptableLock : Guards s.ptableLock s.HoldsPtable
  parked : ∀ p n ticks0, s.thread p = .looping n ticks0 .parked →
    (s.proc p).state = .runnable ∨ (s.proc p).state = .sleeping ∧ (s.proc p).chan = .ticks
  early : ∀ p n ticks0 spot, s.thread p = .looping n ticks0 spot → s.Committed p spot →
    s.Early n ticks0

variable {s} {s' : TickState nproc nenv}

theorem boot_right : (boot nproc nenv).Right := by
  refine ⟨fun a => ?_, fun a => ?_, ?_, ?_⟩
  · cases a <;> simp [boot, HoldsTicks, Sleeper.HoldsTicks]
  · cases a <;> simp [boot, HoldsPtable, Sleeper.HoldsPtable, Waker.HoldsPtable]
  · simp [boot]
  · simp [boot]

namespace Right

variable (h : s.Right)
include h

/-- A step of the thread of `p`. -/
theorem move {p : Fin nproc} {place : Sleeper}
    (hthread : s'.thread = Function.update s.thread p place) (hwaker : s'.waker = s.waker)
    (hstale : s'.stale = s.stale) (hticks : s'.ticks = s.ticks)
    (hproc : ∀ q, q ≠ p → s'.proc q = s.proc q)
    (htickslock : Pass s.tickslock s'.tickslock s.HoldsTicks s'.HoldsTicks (.inl p))
    (hptable : Pass s.ptableLock s'.ptableLock s.HoldsPtable s'.HoldsPtable (.inl p))
    (hparked : ∀ n ticks0, place = .looping n ticks0 .parked →
      (s'.proc p).state = .runnable ∨ (s'.proc p).state = .sleeping ∧ (s'.proc p).chan = .ticks)
    (hearly : ∀ n ticks0 spot, place = .looping n ticks0 spot → s'.Committed p spot →
      s'.Early n ticks0) : s'.Right := by
  have hp : s'.thread p = place := by rw [hthread, Function.update_self]
  have hother : ∀ q, q ≠ p → s'.thread q = s.thread q := by
    intro q hq
    rw [hthread, Function.update_of_ne hq]
  -- no thread takes the lock from other code
  have henv : ∀ e, s'.tickslock = some (.inr e) ↔ s.tickslock = some (.inr e) := by
    intro e
    cases htickslock with
    | acquire hfree hlock _ => simp [hfree, hlock]
    | keep hlock _ => rw [hlock]
    | release hold hlock _ =>
        have hheld := (h.tickslock _).mpr hold
        simp [hlock, hheld]
  refine ⟨h.tickslock.pass htickslock fun b hb => ?_, h.ptableLock.pass hptable fun b hb => ?_,
    fun q n ticks0 hq => ?_, fun q n ticks0 spot hq hcommitted => ?_⟩
  · cases b with
    | inl q => simp only [HoldsTicks, hother q fun heq => hb (by rw [heq])]
    | inr e => exact henv e
  · cases b with
    | inl q => simp only [HoldsPtable, hother q fun heq => hb (by rw [heq])]
    | inr e => simp only [HoldsPtable, hwaker]
  · by_cases hqp : q = p
    · subst hqp
      exact hparked n ticks0 (hp.symm.trans hq)
    · rw [hproc q hqp]
      exact h.parked q n ticks0 ((hother q hqp).symm.trans hq)
  · by_cases hqp : q = p
    · subst hqp
      exact hearly n ticks0 spot (hp.symm.trans hq) hcommitted
    · unfold Committed at hcommitted
      rw [hproc q hqp] at hcommitted
      unfold Early
      rw [hticks, hstale]
      simp only [henv]
      exact h.early q n ticks0 spot ((hother q hqp).symm.trans hq) hcommitted

/-- A step of other code, which wakes threads up at most. -/
theorem serve (hthread : s'.thread = s.thread)
    (htickslock : Guards s'.tickslock s'.HoldsTicks)
    (hptable : Guards s'.ptableLock s'.HoldsPtable)
    (hslot : ∀ p, s.thread p ≠ .away → (s'.proc p).chan = (s.proc p).chan ∧
      ((s'.proc p).state = (s.proc p).state ∨
        (s.proc p).state = .sleeping ∧ (s'.proc p).state = .runnable))
    (hearly : ∀ p n ticks0 spot, s.thread p = .looping n ticks0 spot → s'.Committed p spot →
      s.Early n ticks0 → s'.Early n ticks0) : s'.Right := by
  have haway : ∀ {p n ticks0 spot}, s.thread p = .looping n ticks0 spot → s.thread p ≠ .away := by
    intro p n ticks0 spot hp heq
    rw [heq] at hp
    cases hp
  refine ⟨htickslock, hptable, fun p n ticks0 hp => ?_, fun p n ticks0 spot hp hcommitted => ?_⟩
  · rw [hthread] at hp
    obtain ⟨hchan, heq | ⟨-, hrunnable⟩⟩ := hslot p (haway hp)
    · rw [heq, hchan]
      exact h.parked p n ticks0 hp
    · exact .inl hrunnable
  · rw [hthread] at hp
    refine hearly p n ticks0 spot hp hcommitted (h.early p n ticks0 spot hp ?_)
    obtain ⟨-, heq | ⟨-, hrunnable⟩⟩ := hslot p (haway hp)
    · unfold Committed at hcommitted
      rwa [heq] at hcommitted
    · unfold Committed at hcommitted ⊢
      simp only [hrunnable, reduceCtorEq, and_false, or_false] at hcommitted
      exact hcommitted.imp_right (.imp_right (.imp_right .inl))

/-- Who holds `tickslock` keeps other code from it. -/
theorem lt_of_early {p : Fin nproc} {n ticks0 : BitVec 32} (hearly : s.Early n ticks0)
    (hp : (s.thread p).HoldsTicks) : s.ticks - ticks0 < n := by
  refine hearly.resolve_right ?_
  rintro ⟨e, he, -⟩
  have hheld := (h.tickslock (.inl p)).mpr hp
  rw [he] at hheld
  cases hheld

theorem thread_step {p : Fin nproc} {r : TickState nproc nenv × List (TickEvent nproc)}
    (hr : s.threadStep p = some r) : r.1.Right := by
  unfold threadStep at hr
  cases hp : s.thread p with
  | away => simp [hp] at hr
  | entering n =>
      simp only [hp, Option.ite_none_right_eq_some] at hr
      obtain ⟨hfree, hr⟩ := hr
      cases hr
      exact h.move rfl rfl rfl rfl (fun q _ => rfl) (.acquire hfree rfl (by simp))
        (.keep rfl (by simp [hp])) (by simp) (by simp)
  | reading n =>
      simp only [hp, Option.some.injEq] at hr
      subst hr
      exact h.move rfl rfl rfl rfl (fun q _ => rfl) (.keep rfl (by simp [hp]))
        (.keep rfl (by simp [hp])) (by simp) (by simp [Committed])
  | leaving value =>
      simp only [hp, Option.some.injEq] at hr
      subst hr
      exact h.move rfl rfl rfl rfl (fun q _ => rfl) (.release (by simp [hp]) rfl (by simp))
        (.keep rfl (by simp [hp])) (by simp) (by simp)
  | looping n ticks0 spot =>
      have hearly := h.early p n ticks0 spot hp
      simp only [hp] at hr
      cases spot with
      | testing =>
          dsimp only at hr
          split at hr
          next hlt =>
            cases hr
            refine h.move rfl rfl rfl rfl (fun q _ => rfl) (.keep rfl (by simp [hp]))
              (.keep rfl (by simp [hp])) (by simp) ?_
            intro n' ticks0' spot' heq _
            cases heq
            exact .inl hlt
          next =>
            cases hr
            exact h.move rfl rfl rfl rfl (fun q _ => rfl) (.keep rfl (by simp [hp]))
              (.keep rfl (by simp [hp])) (by simp) (by simp)
      | checking =>
          dsimp only at hr
          split at hr
          next =>
            cases hr
            exact h.move rfl rfl rfl rfl (fun q _ => rfl) (.keep rfl (by simp [hp]))
              (.keep rfl (by simp [hp])) (by simp) (by simp)
          next =>
            cases hr
            refine h.move rfl rfl rfl rfl (fun q _ => rfl) (.keep rfl (by simp [hp]))
              (.keep rfl (by simp [hp])) (by simp) ?_
            intro n' ticks0' spot' heq _
            cases heq
            exact hearly (.inl rfl)
      | locking =>
          simp only [Option.ite_none_right_eq_some] at hr
          obtain ⟨hfree, hr⟩ := hr
          cases hr
          refine h.move rfl rfl rfl rfl (fun q _ => rfl) (.keep rfl (by simp [hp]))
            (.acquire hfree rfl (by simp)) (by simp) ?_
          intro n' ticks0' spot' heq _
          cases heq
          exact hearly (.inr (.inl rfl))
      | unlocking =>
          simp only [Option.some.injEq] at hr
          subst hr
          refine h.move rfl rfl rfl rfl (fun q _ => rfl) (.release (by simp [hp]) rfl (by simp))
            (.keep rfl (by simp [hp])) (by simp) ?_
          intro n' ticks0' spot' heq _
          cases heq
          exact .inl (h.lt_of_early (hearly (.inr (.inr (.inl rfl)))) (p := p) (by simp [hp]))
      | parking =>
          simp only [Option.some.injEq] at hr
          subst hr
          refine h.move rfl rfl rfl rfl (fun q hq => by simp [hq]) (.keep rfl (by simp [hp]))
            (.release (by simp [hp]) rfl (by simp)) (by simp) ?_
          intro n' ticks0' spot' heq _
          cases heq
          exact hearly (.inr (.inr (.inr (.inl rfl))))
      | parked => simp at hr
      | tidying =>
          simp only [Option.some.injEq] at hr
          subst hr
          exact h.move rfl rfl rfl rfl (fun q hq => by simp [hq]) (.keep rfl (by simp [hp]))
            (.release (by simp [hp]) rfl (by simp)) (by simp) (by simp [Committed])
      | relocking =>
          simp only [Option.ite_none_right_eq_some] at hr
          obtain ⟨hfree, hr⟩ := hr
          cases hr
          exact h.move rfl rfl rfl rfl (fun q _ => rfl) (.acquire hfree rfl (by simp))
            (.keep rfl (by simp [hp])) (by simp) (by simp [Committed])

/-- A step of other code that changes neither the locks nor who is in `wakeup`. -/
theorem table (t : Table nproc)
    (hslot : ∀ p, s.thread p ≠ .away → (t p).chan = (s.proc p).chan ∧
      ((t p).state = (s.proc p).state ∨
        (s.proc p).state = .sleeping ∧ (t p).state = .runnable)) :
    ({ s with proc := t } : TickState nproc nenv).Right := by
  refine h.serve rfl (h.tickslock.congr fun a => ?_) (h.ptableLock.congr fun a => ?_) hslot
    fun p n ticks0 spot _ _ => id
  · cases a <;> rfl
  · cases a <;> rfl

/-- Between two steps of `wakeup` of other code. -/
theorem setWaker {e : Fin nenv} {place : Waker nproc}
    {lock : Option (Holder nproc nenv)}
    (hpass : Pass s.ptableLock lock s.HoldsPtable
      ((s.setPtableLock lock).setWaker e place).HoldsPtable (.inr e)) :
    ((s.setPtableLock lock).setWaker e place).Right := by
  refine h.serve rfl (h.tickslock.congr fun a => ?_) (h.ptableLock.pass hpass fun b hb => ?_)
    (fun p _ => ⟨rfl, .inl rfl⟩) fun p n ticks0 spot _ _ => id
  · cases a <;> rfl
  · cases b with
    | inl q => rfl
    | inr d => simp [show d ≠ e from fun heq => hb (by rw [heq])]

/-- `wakeup1` finds every thread that sleeps for ticks; no thread is about to. -/
theorem wake {e : Fin nenv} {chan : Chan nproc} (he : s.waker e = .waking chan) :
    ({ s.setWaker e .unlocking with
      proc := wakeup1 s.proc chan
      stale := if chan = .ticks then Function.update s.stale e false else s.stale } :
        TickState nproc nenv).Right := by
  refine h.serve rfl (h.tickslock.congr fun a => ?_)
    (h.ptableLock.pass (a := .inr e) (.keep rfl (by simp [he])) fun b hb => ?_) (fun p _ => ?_)
    fun p n ticks0 spot hp hcommitted hearly => ?_
  · cases a <;> rfl
  · cases b with
    | inl q => rfl
    | inr d => simp [show d ≠ e from fun heq => hb (by rw [heq])]
  · simp only [wakeup1]
    split
    next hq => exact ⟨rfl, .inr ⟨hq.1, rfl⟩⟩
    next => exact ⟨rfl, .inl rfl⟩
  · by_cases hchan : chan = .ticks
    · subst hchan
      -- the thread is before its `release(lk)`
      refine .inl (h.lt_of_early hearly (p := p) ?_)
      rcases hcommitted with rfl | rfl | rfl | rfl | ⟨rfl, hsleeping⟩
      · simp [hp]
      · simp [hp]
      · simp [hp]
      · exact absurd (a := s.HoldsPtable (.inl p)) (by simp [hp])
          (h.ptableLock.not_of_ne (a := .inr e) (by simp [he]) (by simp))
      · simp only [wakeup1] at hsleeping
        split at hsleeping
        next => cases hsleeping
        next hnot =>
          rcases h.parked p n ticks0 hp with hrunnable | hasleep
          · rw [hrunnable] at hsleeping
            cases hsleeping
          · exact absurd hasleep hnot
    · simpa [Early, hchan] using hearly

theorem step {a : TickAction nproc nenv} (hok : s.Disciplined a)
    {r : TickState nproc nenv × List (TickEvent nproc)} (hr : s.step a = some r) : r.1.Right := by
  cases a with
  | call p n =>
      simp only [TickState.step, Option.ite_none_right_eq_some] at hr
      obtain ⟨hp, hr⟩ := hr
      cases hr
      exact h.move rfl rfl rfl rfl (fun q _ => rfl) (.keep rfl (by simp [hp]))
        (.keep rfl (by simp [hp])) (by simp) (by simp)
  | thread p => exact h.thread_step hr
  | run p =>
      simp only [TickState.step] at hr
      split at hr
      next n ticks0 hp =>
        obtain ⟨⟨hfree, -⟩, hr⟩ := Option.ite_none_right_eq_some.mp hr
        cases hr
        exact h.move rfl rfl rfl rfl (fun q hq => by simp [hq]) (.keep rfl (by simp [hp]))
          (.acquire hfree rfl (by simp)) (by simp) (by simp [Committed])
      next => cases hr
  | kill pid =>
      simp only [TickState.step, Option.ite_none_right_eq_some] at hr
      obtain ⟨-, hr⟩ := hr
      cases hr
      split
      next => exact h
      next i hi =>
        refine h.table _ fun p _ => ?_
        by_cases hpi : p = i
        · subst hpi
          by_cases hsleeping : (s.proc p).state = .sleeping <;> simp [hsleeping]
        · simp [hpi]
  | acquire e =>
      simp only [TickState.step, Option.ite_none_right_eq_some] at hr
      obtain ⟨⟨hfree, -⟩, hr⟩ := hr
      cases hr
      refine h.serve rfl (fun a => ?_) (h.ptableLock.congr fun a => ?_)
        (fun p _ => ⟨rfl, .inl rfl⟩) fun p n ticks0 spot _ _ hearly => ?_
      · cases a with
        | inl p => simpa using h.tickslock.not_of_free hfree (.inl p)
        | inr d => rfl
      · cases a <;> rfl
      · refine .inl (hearly.resolve_right ?_)
        rintro ⟨d, hd, -⟩
        rw [hfree] at hd
        cases hd
  | tick e =>
      simp only [TickState.step, Option.ite_none_right_eq_some] at hr
      obtain ⟨-, hr⟩ := hr
      cases hr
      refine h.serve rfl (h.tickslock.congr fun a => ?_) (h.ptableLock.congr fun a => ?_)
        (fun p _ => ⟨rfl, .inl rfl⟩) fun p n ticks0 spot _ _ _ => .inr ⟨e, hok, by simp⟩
      · cases a <;> rfl
      · cases a <;> rfl
  | release e =>
      simp only [TickState.step, Option.ite_none_right_eq_some] at hr
      obtain ⟨⟨hheld, -⟩, hr⟩ := hr
      cases hr
      refine h.serve rfl (fun a => ?_) (h.ptableLock.congr fun a => ?_)
        (fun p _ => ⟨rfl, .inl rfl⟩) fun p n ticks0 spot _ _ hearly => ?_
      · cases a with
        | inl p =>
            have hp := h.tickslock.not_of_ne (a := .inr e) (b := .inl p) (by simp [hheld])
              (by simp)
            simpa using hp
        | inr d => simp
      · cases a <;> rfl
      · refine .inl (hearly.resolve_right ?_)
        rintro ⟨d, hd, hstale⟩
        rw [hheld] at hd
        cases hd
        exact absurd (hok.symm.trans hstale) (by simp)
  | wakeup e chan =>
      simp only [TickState.step, Option.ite_none_right_eq_some] at hr
      obtain ⟨he, hr⟩ := hr
      cases hr
      exact h.setWaker (.keep rfl (by simp [he]))
  | waker e =>
      simp only [TickState.step, wakerStep] at hr
      split at hr
      next => cases hr
      next chan he =>
        obtain ⟨hfree, hr⟩ := Option.ite_none_right_eq_some.mp hr
        cases hr
        exact h.setWaker (.acquire hfree rfl (by simp))
      next chan he =>
        cases hr
        exact h.wake he
      next he =>
        cases hr
        exact h.setWaker (.release (by simp [he]) rfl (by simp))
  | other t =>
      simp only [TickState.step, Option.ite_none_right_eq_some] at hr
      obtain ⟨-, hr⟩ := hr
      cases hr
      exact h.table t fun p hp => ⟨(hok p hp).2.1, .inl (hok p hp).1⟩

end Right

/-! ## The ticks a thread has waited for -/

/-- The thread of `p` has waited since it read `ticks0`. -/
def Since (history : List (TickEvent nproc)) (p : Fin nproc) (n ticks0 : BitVec 32) : Prop :=
  ∃ before after, history = before ++ .start p n :: after ∧ (∀ m, .start p m ∉ after) ∧
    ticks0 = BitVec.ofNat 32 (before.count .tick)

/-- `sys_sleep` returns 0 after as many ticks as it was asked to wait for, and -1
to a process that is killed. -/
def Returns (history : List (TickEvent nproc)) (s : TickState nproc nenv) (p : Fin nproc)
    (value : Int) : Prop :=
  (value = 0 ∧ ∃ n before after, history = before ++ .start p n :: after ∧
    (∀ m, .start p m ∉ after) ∧ n.toNat ≤ after.count .tick) ∨
  (value = -1 ∧ (s.proc p).killed = true)

/-- The variable `ticks` counts the ticks, and the threads have waited as they think. -/
structure Timed (history : List (TickEvent nproc)) (s : TickState nproc nenv) : Prop where
  ticks : s.ticks = BitVec.ofNat 32 (history.count .tick)
  since : ∀ p n ticks0 spot, s.thread p = .looping n ticks0 spot → Since history p n ticks0
  leaving : ∀ p value, s.thread p = .leaving value → Returns history s p value

variable {history : List (TickEvent nproc)} {p : Fin nproc} {n ticks0 : BitVec 32}

/-- The difference of two readings of `ticks` is the number of ticks between them. -/
theorem Since.elapsed (h : Since history p n ticks0) :
    ∃ before after, history = before ++ .start p n :: after ∧ (∀ m, .start p m ∉ after) ∧
      (BitVec.ofNat 32 (history.count .tick) - ticks0).toNat = after.count .tick % 2 ^ 32 := by
  obtain ⟨before, after, rfl, hafter, rfl⟩ := h
  refine ⟨before, after, rfl, hafter, ?_⟩
  have hcount : (before ++ .start p n :: after).count .tick =
      before.count .tick + after.count .tick := by
    simp
  rw [hcount, Nat.add_comm, BitVec.ofNat_add, BitVec.add_sub_cancel, BitVec.toNat_ofNat]

theorem Since.append (h : Since history p n ticks0) {events : List (TickEvent nproc)}
    (hevents : ∀ m, .start p m ∉ events) : Since (history ++ events) p n ticks0 := by
  obtain ⟨before, after, rfl, hafter, hticks0⟩ := h
  refine ⟨before, after ++ events, by simp, fun m hm => ?_, hticks0⟩
  rcases List.mem_append.mp hm with hm | hm
  · exact hafter m hm
  · exact hevents m hm

theorem Returns.append {value : Int} (h : Returns history s p value)
    {events : List (TickEvent nproc)} (hevents : ∀ m, .start p m ∉ events)
    (hkilled : (s.proc p).killed = true → (s'.proc p).killed = true) :
    Returns (history ++ events) s' p value := by
  rcases h with ⟨hvalue, m, before, after, rfl, hafter, hcount⟩ | ⟨hvalue, hdead⟩
  · refine .inl ⟨hvalue, m, before, after ++ events, by simp, fun k hk => ?_, ?_⟩
    · rcases List.mem_append.mp hk with hk | hk
      · exact hafter k hk
      · exact hevents k hk
    · rw [List.count_append]
      exact Nat.le_add_right_of_le hcount
  · exact .inr ⟨hvalue, hkilled hdead⟩

theorem killed_setProc {slot : Proc nproc} (hslot : slot.killed = (s.proc p).killed)
    (q : Fin nproc) : ((s.setProc p slot).proc q).killed = (s.proc q).killed := by
  by_cases hq : q = p
  · subst hq
    simpa using hslot
  · simp [hq]

theorem boot_timed : Timed [] (boot nproc nenv) := by
  refine ⟨rfl, ?_, ?_⟩
  · simp [boot]
  · simp [boot]

namespace Timed

variable (h : Timed history s)
include h

/-- A step that is not the start of a wait. -/
theorem pass {events : List (TickEvent nproc)}
    (hticks : s'.ticks = BitVec.ofNat 32 ((history ++ events).count .tick))
    (hevents : ∀ p m, .start p m ∉ events)
    (hkilled : ∀ p, s.thread p ≠ .away → (s.proc p).killed = true → (s'.proc p).killed = true)
    (hthread : ∀ p, s'.thread p = s.thread p ∨
      (∀ n ticks0 spot, s'.thread p = .looping n ticks0 spot →
        ∃ spot', s.thread p = .looping n ticks0 spot') ∧
      ∀ value, s'.thread p = .leaving value → Returns history s' p value) :
    Timed (history ++ events) s' := by
  refine ⟨hticks, fun p n ticks0 spot hp => ?_, fun p value hp => ?_⟩
  · have hspot : ∃ spot', s.thread p = .looping n ticks0 spot' := by
      rcases hthread p with heq | ⟨hspot, -⟩
      · exact ⟨spot, heq ▸ hp⟩
      · exact hspot n ticks0 spot hp
    obtain ⟨spot', hp'⟩ := hspot
    exact (h.since p n ticks0 spot' hp').append (hevents p)
  · rcases hthread p with heq | ⟨-, hreturns⟩
    · rw [heq] at hp
      exact (h.leaving p value hp).append (hevents p) (hkilled p (by simp [hp]))
    · exact (hreturns value hp).append (hevents p) id

/-- A step of other code that does not count a tick. -/
theorem serve (hticks : s'.ticks = s.ticks) (hthread : s'.thread = s.thread)
    (hkilled : ∀ p, s.thread p ≠ .away → (s.proc p).killed = true → (s'.proc p).killed = true) :
    Timed (history ++ []) s' :=
  h.pass (by rw [hticks, h.ticks, List.append_nil]) (by simp) hkilled
    fun p => .inl (by rw [hthread])

/-- A step of the thread of `p` that does not start its wait. -/
theorem move {place : Sleeper} (hthread : s'.thread = Function.update s.thread p place)
    (hticks : s'.ticks = s.ticks)
    (hkilled : ∀ q, (s'.proc q).killed = (s.proc q).killed)
    (hspot : ∀ n ticks0 spot, place = .looping n ticks0 spot →
      ∃ spot', s.thread p = .looping n ticks0 spot')
    (hreturns : ∀ value, place = .leaving value → Returns history s' p value) :
    Timed (history ++ []) s' := by
  refine h.pass (by rw [hticks, h.ticks, List.append_nil]) (by simp)
    (fun q _ hq => (hkilled q).trans hq) fun q => ?_
  by_cases hq : q = p
  · subst hq
    rw [hthread, Function.update_self]
    exact .inr ⟨hspot, hreturns⟩
  · exact .inl (by rw [hthread, Function.update_of_ne hq])

/-- A thread reads `ticks`. -/
theorem start (p : Fin nproc) (n : BitVec 32) :
    Timed (history ++ [.start p n]) (s.setThread p (.looping n s.ticks .testing)) := by
  have hothers : ∀ q, q ≠ p → ∀ m, TickEvent.start q m ∉ [TickEvent.start p n] := by
    intro q hq m hm
    cases List.mem_singleton.mp hm
    exact hq rfl
  refine ⟨by simpa using h.ticks, fun q n' ticks0 spot hq => ?_, fun q value hq => ?_⟩
  · by_cases hqp : q = p
    · subst hqp
      simp only [setThread, Function.update_self, Sleeper.looping.injEq] at hq
      obtain ⟨rfl, rfl, -⟩ := hq
      exact ⟨history, [], rfl, by simp, h.ticks⟩
    · simp only [setThread, Function.update_of_ne hqp] at hq
      exact (h.since q n' ticks0 spot hq).append (hothers q hqp)
  · by_cases hqp : q = p
    · subst hqp
      simp at hq
    · simp only [setThread, Function.update_of_ne hqp] at hq
      exact (h.leaving q value hq).append (hothers q hqp) id

theorem thread_step {r : TickState nproc nenv × List (TickEvent nproc)}
    (hr : s.threadStep p = some r) : Timed (history ++ r.2) r.1 := by
  unfold threadStep at hr
  cases hp : s.thread p with
  | away => simp [hp] at hr
  | entering n =>
      simp only [hp, Option.ite_none_right_eq_some] at hr
      cases hr.2
      exact h.move rfl rfl (fun _ => rfl) (by simp) (by simp)
  | reading n =>
      simp only [hp, Option.some.injEq] at hr
      subst hr
      exact h.start p n
  | leaving value =>
      simp only [hp, Option.some.injEq] at hr
      subst hr
      exact h.move rfl rfl (fun _ => rfl) (by simp) (by simp)
  | looping n ticks0 spot =>
      simp only [hp] at hr
      cases spot with
      | testing =>
          dsimp only at hr
          split at hr
          next =>
            cases hr
            exact h.move rfl rfl (fun _ => rfl) (by simp [hp]) (by simp)
          next hlt =>
            cases hr
            refine h.move rfl rfl (fun _ => rfl) (by simp) ?_
            intro value heq
            cases heq
            obtain ⟨before, after, hhistory, hafter, helapsed⟩ :=
              (h.since p n ticks0 .testing hp).elapsed
            refine .inl ⟨rfl, n, before, after, hhistory, hafter, ?_⟩
            have hle : n.toNat ≤ (s.ticks - ticks0).toNat := BitVec.le_def.mp (BitVec.not_lt.mp hlt)
            rw [h.ticks, helapsed] at hle
            exact hle.trans (Nat.mod_le _ _)
      | checking =>
          dsimp only at hr
          split at hr
          next hkilled =>
            cases hr
            refine h.move rfl rfl (fun _ => rfl) (by simp) ?_
            intro value heq
            cases heq
            exact .inr ⟨rfl, hkilled⟩
          next =>
            cases hr
            exact h.move rfl rfl (fun _ => rfl) (by simp [hp]) (by simp)
      | locking =>
          simp only [Option.ite_none_right_eq_some] at hr
          cases hr.2
          exact h.move rfl rfl (fun _ => rfl) (by simp [hp]) (by simp)
      | unlocking =>
          simp only [Option.some.injEq] at hr
          subst hr
          exact h.move rfl rfl (fun _ => rfl) (by simp [hp]) (by simp)
      | parking =>
          simp only [Option.some.injEq] at hr
          subst hr
          exact h.move rfl rfl (killed_setProc rfl) (by simp [hp]) (by simp)
      | parked => simp at hr
      | tidying =>
          simp only [Option.some.injEq] at hr
          subst hr
          exact h.move rfl rfl (killed_setProc rfl) (by simp [hp]) (by simp)
      | relocking =>
          simp only [Option.ite_none_right_eq_some] at hr
          cases hr.2
          exact h.move rfl rfl (fun _ => rfl) (by simp [hp]) (by simp)

theorem step {a : TickAction nproc nenv} (hok : s.Disciplined a)
    {r : TickState nproc nenv × List (TickEvent nproc)} (hr : s.step a = some r) :
    Timed (history ++ r.2) r.1 := by
  cases a with
  | call p n =>
      simp only [TickState.step, Option.ite_none_right_eq_some] at hr
      cases hr.2
      exact h.move rfl rfl (fun _ => rfl) (by simp) (by simp)
  | thread p => exact h.thread_step hr
  | run p =>
      simp only [TickState.step] at hr
      split at hr
      next n ticks0 hp =>
        cases (Option.ite_none_right_eq_some.mp hr).2
        exact h.move rfl rfl (killed_setProc rfl) (by simp [hp]) (by simp)
      next => cases hr
  | kill pid =>
      simp only [TickState.step, Option.ite_none_right_eq_some] at hr
      cases hr.2
      split
      next => exact h.serve rfl rfl fun p _ => id
      next i hi =>
        refine h.serve rfl rfl fun p _ hkilled => ?_
        by_cases hpi : p = i <;> simp [hpi, hkilled]
  | acquire e =>
      simp only [TickState.step, Option.ite_none_right_eq_some] at hr
      cases hr.2
      exact h.serve rfl rfl fun p _ => id
  | tick e =>
      simp only [TickState.step, Option.ite_none_right_eq_some] at hr
      cases hr.2
      refine h.pass ?_ (by simp) (fun p _ => id) fun p => .inl rfl
      simp [h.ticks, BitVec.ofNat_add]
  | release e =>
      simp only [TickState.step, Option.ite_none_right_eq_some] at hr
      cases hr.2
      exact h.serve rfl rfl fun p _ => id
  | wakeup e chan =>
      simp only [TickState.step, Option.ite_none_right_eq_some] at hr
      cases hr.2
      exact h.serve rfl rfl fun p _ => id
  | waker e =>
      simp only [TickState.step, wakerStep] at hr
      split at hr
      next => cases hr
      next =>
        cases (Option.ite_none_right_eq_some.mp hr).2
        exact h.serve rfl rfl fun p _ => id
      next =>
        cases hr
        refine h.serve rfl rfl fun p _ hkilled => ?_
        simp only [wakeup1]
        split <;> exact hkilled
      next =>
        cases hr
        exact h.serve rfl rfl fun p _ => id
  | other t =>
      simp only [TickState.step, Option.ite_none_right_eq_some] at hr
      cases hr.2
      exact h.serve rfl rfl fun p hp hkilled => (hok p hp).2.2.trans hkilled

end Timed

/-! ## Every run -/

theorem right_of_reach (h : Reach TickState.step Disciplined (boot nproc nenv) history s) :
    s.Right ∧ Timed history s := by
  induction h with
  | start => exact ⟨boot_right, boot_timed⟩
  | step _ hok hstep ih => exact ⟨ih.1.step hok hstep, ih.2.step hok hstep⟩

/-- How many steps the thread of `p` can take without another tick. -/
def left (s : TickState nproc nenv) (p : Fin nproc) : Nat :=
  match s.thread p with
  | .away => 0
  | .entering _ => 7
  | .reading _ => 6
  | .leaving _ => 1
  | .looping _ _ spot =>
      match spot with
      | .testing => 5
      | .checking => 4
      | .locking => 3
      | .unlocking => 2
      | .parking => 1
      | .parked => if (s.proc p).state = .runnable then 8 else 0
      | .tidying => 7
      | .relocking => 6

end TickState

end OsCourse.Kernel
