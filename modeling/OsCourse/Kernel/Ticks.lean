import Mathlib.Data.BitVec
import OsCourse.Kernel.Machine

/-! # Sleeping with a lock

`sys_sleep` waits for clock ticks, with `ticks` under a lock of its own. A
thread in `sleep` takes `ptable.lock` before it gives that lock up, and gives
`ptable.lock` up only when it is SLEEPING; `wakeup` takes `ptable.lock` too.
The two locks are taken and released in steps of their own here. The clock
interrupt is not part of the sources: any code outside them may use the lock,
change `ticks` and call `wakeup`.
-/

namespace OsCourse.Kernel

open Transition

variable {nproc nenv : Nat}

/-- `&ticks`; nothing depends on its address. -/
def Chan.ticks : Chan nproc := .other 0

/-- Where a thread is in the loop of `sys_sleep`, and in the `sleep` it calls. -/
inductive Spot
  /-- at the condition of the loop -/
  | testing
  /-- at `if(proc->killed)` -/
  | checking
  /-- at `acquire(&ptable.lock)` -/
  | locking
  /-- at `release(lk)` -/
  | unlocking
  /-- at `proc->chan = chan` -/
  | parking
  /-- behind the call of `sched`, off the CPU -/
  | parked
  /-- at `proc->chan = 0` -/
  | tidying
  /-- at `acquire(lk)` -/
  | relocking
  deriving DecidableEq

/-- Where a thread is in `sys_sleep`, with the variables `n`, as an unsigned
number, and `ticks0`. -/
inductive Sleeper
  /-- outside `sys_sleep` -/
  | away
  /-- at `acquire(&tickslock)` -/
  | entering (n : BitVec 32)
  /-- at `ticks0 = ticks` -/
  | reading (n : BitVec 32)
  | looping (n ticks0 : BitVec 32) (spot : Spot)
  /-- at `release(&tickslock)`, to return the value -/
  | leaving (value : Int)
  deriving DecidableEq

/-- Where other code is in `wakeup`. -/
inductive Waker (nproc : Nat)
  /-- outside `wakeup` -/
  | away
  /-- at `acquire(&ptable.lock)` -/
  | locking (chan : Chan nproc)
  /-- at `wakeup1(chan)` -/
  | waking (chan : Chan nproc)
  /-- at `release(&ptable.lock)` -/
  | unlocking
  deriving DecidableEq

/-- Who can hold a lock: the thread of a process, or other code. -/
abbrev Holder (nproc nenv : Nat) := Fin nproc ⊕ Fin nenv

/-- The table, `ticks`, the two locks, and where everybody is. Other code is
`stale` when it has changed `ticks` and not called `wakeup(&ticks)` since. -/
structure TickState (nproc nenv : Nat) where
  proc : Table nproc
  ticks : BitVec 32
  tickslock : Option (Holder nproc nenv)
  ptableLock : Option (Holder nproc nenv)
  thread : Fin nproc → Sleeper
  waker : Fin nenv → Waker nproc
  stale : Fin nenv → Bool

inductive TickAction (nproc nenv : Nat)
  /-- a process calls `sys_sleep` -/
  | call (p : Fin nproc) (n : BitVec 32)
  /-- its next step -/
  | thread (p : Fin nproc)
  /-- the scheduler switches to the process -/
  | run (p : Fin nproc)
  | kill (pid : Int)
  /-- other code takes `tickslock` -/
  | acquire (e : Fin nenv)
  /-- other code counts a clock tick -/
  | tick (e : Fin nenv)
  | release (e : Fin nenv)
  /-- other code calls `wakeup` -/
  | wakeup (e : Fin nenv) (chan : Chan nproc)
  /-- its next step in `wakeup` -/
  | waker (e : Fin nenv)
  /-- any other critical section of `ptable.lock`, with the table it leaves -/
  | other (t : Table nproc)

/-- A thread reads `ticks` to wait from then on, and a clock tick is counted. -/
inductive TickEvent (nproc : Nat)
  | start (p : Fin nproc) (n : BitVec 32)
  | tick
  deriving DecidableEq

namespace TickState

/-- Before the first call of `sys_sleep`. -/
def boot (nproc nenv : Nat) : TickState nproc nenv :=
  ⟨fun _ => .zero nproc, 0, none, none, fun _ => .away, fun _ => .away, fun _ => false⟩

variable (s : TickState nproc nenv)

@[simp] def setThread (p : Fin nproc) (place : Sleeper) : TickState nproc nenv :=
  { s with thread := Function.update s.thread p place }

@[simp] def setWaker (e : Fin nenv) (place : Waker nproc) : TickState nproc nenv :=
  { s with waker := Function.update s.waker e place }

@[simp] def setProc (p : Fin nproc) (slot : Proc nproc) : TickState nproc nenv :=
  { s with proc := Function.update s.proc p slot }

@[simp] def setTickslock (holder : Option (Holder nproc nenv)) : TickState nproc nenv :=
  { s with tickslock := holder }

@[simp] def setPtableLock (holder : Option (Holder nproc nenv)) : TickState nproc nenv :=
  { s with ptableLock := holder }

/-- The next step of the thread of `p`. -/
def threadStep (p : Fin nproc) : Option (TickState nproc nenv × List (TickEvent nproc)) :=
  match s.thread p with
  | .away => none
  | .entering n =>
      if s.tickslock = none then
        some ((s.setTickslock (some (.inl p))).setThread p (.reading n), [])
      else none
  | .reading n => some (s.setThread p (.looping n s.ticks .testing), [.start p n])
  | .looping n ticks0 spot =>
      match spot with
      | .testing =>
          if s.ticks - ticks0 < n then some (s.setThread p (.looping n ticks0 .checking), [])
          else some (s.setThread p (.leaving 0), [])
      | .checking =>
          if (s.proc p).killed then some (s.setThread p (.leaving (-1)), [])
          else some (s.setThread p (.looping n ticks0 .locking), [])
      | .locking =>
          if s.ptableLock = none then
            some ((s.setPtableLock (some (.inl p))).setThread p (.looping n ticks0 .unlocking), [])
          else none
      | .unlocking =>
          some ((s.setTickslock none).setThread p (.looping n ticks0 .parking), [])
      | .parking =>
          -- the scheduler releases `ptable.lock`
          some (((s.setProc p { s.proc p with state := .sleeping, chan := .ticks }).setPtableLock
            none).setThread p (.looping n ticks0 .parked), [])
      | .parked => none
      | .tidying =>
          some (((s.setProc p { s.proc p with chan := .null }).setPtableLock none).setThread p
            (.looping n ticks0 .relocking), [])
      | .relocking =>
          if s.tickslock = none then
            some ((s.setTickslock (some (.inl p))).setThread p (.looping n ticks0 .testing), [])
          else none
  | .leaving _ => some ((s.setTickslock none).setThread p .away, [])

/-- The next step of other code in `wakeup`. -/
def wakerStep (e : Fin nenv) : Option (TickState nproc nenv × List (TickEvent nproc)) :=
  match s.waker e with
  | .away => none
  | .locking chan =>
      if s.ptableLock = none then
        some ((s.setPtableLock (some (.inr e))).setWaker e (.waking chan), [])
      else none
  | .waking chan =>
      some ({ s.setWaker e .unlocking with
        proc := wakeup1 s.proc chan
        stale := if chan = .ticks then Function.update s.stale e false else s.stale }, [])
  | .unlocking => some ((s.setPtableLock none).setWaker e .away, [])

def step : TickAction nproc nenv → Option (TickState nproc nenv × List (TickEvent nproc))
  | .call p n => if s.thread p = .away then some (s.setThread p (.entering n), []) else none
  | .thread p => s.threadStep p
  | .run p =>
      match s.thread p with
      | .looping n ticks0 .parked =>
          -- the scheduler holds `ptable.lock` and hands it over
          if s.ptableLock = none ∧ (s.proc p).state = .runnable then
            some (((s.setProc p { s.proc p with state := .running }).setPtableLock
              (some (.inl p))).setThread p (.looping n ticks0 .tidying), [])
          else none
      | _ => none
  | .kill pid =>
      if s.ptableLock = none then
        some (match findPid s.proc pid with
          | none => s
          | some i => s.setProc i { s.proc i with
              killed := true
              state := if (s.proc i).state = .sleeping then .runnable else (s.proc i).state }, [])
      else none
  | .acquire e =>
      if s.tickslock = none ∧ s.waker e = .away then
        some (s.setTickslock (some (.inr e)), [])
      else none
  | .tick e =>
      if s.waker e = .away then
        some ({ s with ticks := s.ticks + 1, stale := Function.update s.stale e true }, [.tick])
      else none
  | .release e =>
      if s.tickslock = some (.inr e) ∧ s.waker e = .away then some (s.setTickslock none, [])
      else none
  | .wakeup e chan =>
      if s.waker e = .away then some (s.setWaker e (.locking chan), []) else none
  | .waker e => s.wakerStep e
  | .other t => if s.ptableLock = none then some ({ s with proc := t }, []) else none

/-- How other code uses what it shares with `sys_sleep`: it counts ticks with
`tickslock` held, calls `wakeup(&ticks)` before it releases the lock again, and
leaves the state, the channel and the killed flag of a process in `sys_sleep` to
`wakeup` and `kill`. -/
def Disciplined : TickAction nproc nenv → Prop
  | .tick e => s.tickslock = some (.inr e)
  | .release e => s.stale e = false
  | .other t => ∀ p, s.thread p ≠ .away → (t p).state = (s.proc p).state ∧
      (t p).chan = (s.proc p).chan ∧ (t p).killed = (s.proc p).killed
  | _ => True

instance (a : TickAction nproc nenv) : Decidable (s.Disciplined a) :=
  match a with
  | .tick _ => inferInstanceAs (Decidable (_ = _))
  | .release _ => inferInstanceAs (Decidable (_ = _))
  | .other _ => inferInstanceAs (Decidable (∀ _, _ → _))
  | .call _ _ => .isTrue trivial
  | .thread _ => .isTrue trivial
  | .run _ => .isTrue trivial
  | .kill _ => .isTrue trivial
  | .acquire _ => .isTrue trivial
  | .wakeup _ _ => .isTrue trivial
  | .waker _ => .isTrue trivial

end TickState

end OsCourse.Kernel
