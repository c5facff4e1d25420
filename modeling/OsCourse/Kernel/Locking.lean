import OsCourse.Kernel.Machine

/-! # The kernel with its lock

The kernel at a finer grain: taking `ptable.lock` and giving it back are steps
of their own, and so are the switches between a process and the scheduler of
its CPU. The lottery looks at one slot in a step. Whoever calls `sched` holds
the lock, and the other side of the switch gives it back.
-/

namespace OsCourse.Kernel

open MachineInt

/-- What a process takes `ptable.lock` for. -/
inductive Request (nproc : Nat)
  /-- `fork`: `allocproc` takes a slot -/
  | forkAlloc
  /-- `fork` makes the child RUNNABLE -/
  | forkFinish
  | exit
  | wait
  /-- `sleep` with a lock other than `ptable.lock` -/
  | sleep (chan : Chan nproc)
  | wakeup (chan : Chan nproc)
  | kill (pid : Int)
  | yield
  deriving DecidableEq

/-- Where the kernel thread of a process is. -/
inductive Place (nproc : Nat)
  /-- outside the critical sections of `ptable.lock` -/
  | free
  /-- at `acquire(&ptable.lock)` -/
  | acquiring (r : Request nproc)
  /-- behind `acquire(&ptable.lock)` -/
  | holding (r : Request nproc)
  /-- at the call of `sched` -/
  | calling
  /-- behind the call of `sched`, or at the start of `forkret` -/
  | returning
  /-- at `release(&ptable.lock)` -/
  | releasing
  deriving DecidableEq

/-- Where a CPU is: in the loop of `scheduler`, whose variable `winner` stays
while a process runs, or in an interrupt that came when it was idle. -/
inductive Mode (nproc : Nat)
  /-- at `acquire(&ptable.lock)` in `scheduler` -/
  | idle
  /-- in the loop that sums up the tickets -/
  | summing (rest : List (Fin nproc)) (num : Int)
  /-- in the loop that looks for the winner -/
  | picking (winner : Int) (rest : List (Fin nproc)) (counter : Int)
  /-- at `proc = p` -/
  | switching (winner : Int) (p : Fin nproc)
  /-- in the thread of `p` -/
  | running (winner : Int) (p : Fin nproc)
  /-- behind `swtch`, at `proc = 0` -/
  | switched
  /-- at `release(&ptable.lock)` -/
  | releasing
  /-- at `acquire(&ptable.lock)` in `wakeup`, called by an interrupt -/
  | acquiring (chan : Chan nproc)
  /-- at `wakeup1(chan)` -/
  | waking (chan : Chan nproc)
  deriving DecidableEq

/-- The kernel, with the place of each process, the mode of each CPU, and the
CPU that holds `ptable.lock`. -/
structure LockState (nproc ncpu : Nat) where
  kernel : State nproc ncpu
  place : Fin nproc → Place nproc
  mode : Fin ncpu → Mode nproc
  lock : Option (Fin ncpu)

inductive LockAction (nproc ncpu : Nat)
  /-- `userinit`, before the CPUs run processes -/
  | userinit
  /-- the process on the CPU comes to a critical section -/
  | call (c : Fin ncpu) (r : Request nproc)
  /-- `fork`: `kalloc` in `allocproc` -/
  | forkKalloc (c : Fin ncpu) (ok : Bool)
  /-- `fork`: `copyuvm`, then the writes up to the critical section -/
  | forkCopy (c : Fin ncpu) (ok : Bool)
  /-- `sys_settickets` -/
  | settickets (c : Fin ncpu) (tix : Int)
  /-- an interrupt calls `wakeup` on an idle CPU -/
  | interrupt (c : Fin ncpu) (chan : Chan nproc)
  /-- the next step of the CPU, with what `random_at_most` returns -/
  | cpu (c : Fin ncpu) (winner : Int)

variable {nproc ncpu : Nat}

/-- Set the state and the channel in front of `sched`; `sched` saves the context. -/
def State.park (k : State nproc ncpu) (p : Fin nproc) (state : ProcState) (chan : Chan nproc)
    (context : Context) : State nproc ncpu :=
  k.setProc p { k.proc p with state := state, chan := chan, context := context }

namespace LockState

/-- Before `userinit`. -/
def boot (nproc ncpu : Nat) : LockState nproc ncpu :=
  ⟨.boot nproc ncpu, fun _ => .free, fun _ => .idle, none⟩

variable (l : LockState nproc ncpu)

def setPlace (p : Fin nproc) (place : Place nproc) : LockState nproc ncpu :=
  { l with place := Function.update l.place p place }

def setMode (c : Fin ncpu) (mode : Mode nproc) : LockState nproc ncpu :=
  { l with mode := Function.update l.mode c mode }

def setKernel (k : State nproc ncpu) : LockState nproc ncpu := { l with kernel := k }

def setLock (lock : Option (Fin ncpu)) : LockState nproc ncpu := { l with lock := lock }

@[simp] theorem setPlace_place (p q : Fin nproc) (place : Place nproc) :
    (l.setPlace p place).place q = if q = p then place else l.place q :=
  Function.update_apply ..

@[simp] theorem setPlace_mode (p : Fin nproc) (place : Place nproc) :
    (l.setPlace p place).mode = l.mode := rfl

@[simp] theorem setPlace_kernel (p : Fin nproc) (place : Place nproc) :
    (l.setPlace p place).kernel = l.kernel := rfl

@[simp] theorem setPlace_lock (p : Fin nproc) (place : Place nproc) :
    (l.setPlace p place).lock = l.lock := rfl

@[simp] theorem setMode_mode (c d : Fin ncpu) (mode : Mode nproc) :
    (l.setMode c mode).mode d = if d = c then mode else l.mode d :=
  Function.update_apply ..

@[simp] theorem setMode_place (c : Fin ncpu) (mode : Mode nproc) :
    (l.setMode c mode).place = l.place := rfl

@[simp] theorem setMode_kernel (c : Fin ncpu) (mode : Mode nproc) :
    (l.setMode c mode).kernel = l.kernel := rfl

@[simp] theorem setMode_lock (c : Fin ncpu) (mode : Mode nproc) :
    (l.setMode c mode).lock = l.lock := rfl

@[simp] theorem setKernel_kernel (k : State nproc ncpu) : (l.setKernel k).kernel = k := rfl

@[simp] theorem setKernel_place (k : State nproc ncpu) : (l.setKernel k).place = l.place := rfl

@[simp] theorem setKernel_mode (k : State nproc ncpu) : (l.setKernel k).mode = l.mode := rfl

@[simp] theorem setKernel_lock (k : State nproc ncpu) : (l.setKernel k).lock = l.lock := rfl

@[simp] theorem setLock_lock (lock : Option (Fin ncpu)) : (l.setLock lock).lock = lock := rfl

@[simp] theorem setLock_place (lock : Option (Fin ncpu)) : (l.setLock lock).place = l.place := rfl

@[simp] theorem setLock_mode (lock : Option (Fin ncpu)) : (l.setLock lock).mode = l.mode := rfl

@[simp] theorem setLock_kernel (lock : Option (Fin ncpu)) : (l.setLock lock).kernel = l.kernel :=
  rfl

/-- The process on CPU `c`, when it is outside the critical sections. -/
def freeOn (c : Fin ncpu) : Option (Fin nproc) :=
  match l.mode c with
  | .running _ p => if l.place p = .free then some p else none
  | _ => none

/-- The call comes from where the source has it: `exit` of `initproc` panics,
and only a `fork` that has filled its slot goes on to its end. -/
def Admits (p : Fin nproc) : Request nproc → Prop
  | .wakeup _ | .yield => True
  | .forkFinish => ∃ np, (l.kernel.proc p).forking = some (np, .copied)
  | .exit => (l.kernel.proc p).forking = none ∧ l.kernel.initproc ≠ some p
  | _ => (l.kernel.proc p).forking = none

instance (p : Fin nproc) (r : Request nproc) : Decidable (l.Admits p r) :=
  match r with
  | .wakeup _ => .isTrue trivial
  | .yield => .isTrue trivial
  | .forkFinish => inferInstanceAs (Decidable (∃ np, _ = some (np, ForkStage.copied)))
  | .exit => inferInstanceAs (Decidable (_ = none ∧ _ ≠ some p))
  | .forkAlloc => inferInstanceAs (Decidable (_ = none))
  | .wait => inferInstanceAs (Decidable (_ = none))
  | .sleep _ => inferInstanceAs (Decidable (_ = none))
  | .kill _ => inferInstanceAs (Decidable (_ = none))

/-- The critical section of `p` goes on to its release of the lock. -/
def finish (p : Fin nproc) (k : State nproc ncpu) (events : List (Event nproc)) :
    LockState nproc ncpu × List (Event nproc) :=
  ((l.setKernel k).setPlace p .releasing, events)

/-- The critical section of `p` goes on to its call of `sched`. -/
def toSched (p : Fin nproc) (k : State nproc ncpu) (events : List (Event nproc)) :
    LockState nproc ncpu × List (Event nproc) :=
  ((l.setKernel k).setPlace p .calling, events)

/-- A turn of the loop of `wait`, with the table `k`. -/
def waitLoop (p : Fin nproc) (k : State nproc ncpu) (events : List (Event nproc)) :
    LockState nproc ncpu × List (Event nproc) :=
  match scanChildren k.proc p (List.finRange nproc) false with
  | (some i, _) => l.finish p (k.reap i) (events ++ [.wait (k.proc p).pid (k.proc i).pid])
  | (none, havekids) =>
      if !havekids || (k.proc p).killed then
        l.finish p k (events ++ [.wait (k.proc p).pid (-1)])
      else l.toSched p (k.park p .sleeping (.proc p) .waitSleep) events

/-- The critical section of `p` on CPU `c`, from behind `acquire(&ptable.lock)`. -/
def section_ (c : Fin ncpu) (p : Fin nproc) :
    Request nproc → Option (LockState nproc ncpu × List (Event nproc))
  | .forkAlloc =>
      match findUnused l.kernel.proc with
      | none => some (l.finish p l.kernel [.fork (l.kernel.proc p).pid (-1)])
      | some np => some (l.finish p
          ((l.kernel.allocSlot np).setForking p (some (np, .allocated)))
          [.alloc np l.kernel.nextpid])
  | .forkFinish =>
      match (l.kernel.proc p).forking with
      | some (np, .copied) => some (l.finish p
          ((l.kernel.setProc np { l.kernel.proc np with state := .runnable }).setForking p none)
          [.fork (l.kernel.proc p).pid (l.kernel.proc np).pid])
      | _ => none
  | .exit => some (l.toSched p { l.kernel with proc := (l.kernel.exitProc c p).proc }
      [.exit (l.kernel.proc p).pid])
  | .wait => some (l.waitLoop p l.kernel [])
  | .sleep chan => some (l.toSched p (l.kernel.park p .sleeping chan .sleep) [])
  | .wakeup chan =>
      some (l.finish p { l.kernel with proc := wakeup1 l.kernel.proc chan } [])
  | .kill pid =>
      match findPid l.kernel.proc pid with
      | none => some (l.finish p l.kernel [.kill pid (-1)])
      | some i => some (l.finish p (l.kernel.markKilled i) [.kill pid 0])
  | .yield => some (l.toSched p
      (l.kernel.park p .runnable (l.kernel.proc p).chan .yield) [])

/-- What `p` does behind `sched`, or in `forkret`. -/
def resume (p : Fin nproc) : LockState nproc ncpu × List (Event nproc) :=
  match (l.kernel.proc p).context with
  | .forkret => l.finish p l.kernel [.switch p]
  | .yield => l.finish p l.kernel [.switch p]
  | .sleep => l.finish p (l.kernel.clearChan p) [.switch p]
  | .waitSleep => l.waitLoop p (l.kernel.clearChan p) [.switch p]

/-- `sched` is to be called with the lock held and the state changed; otherwise
it panics. -/
def SchedReady (c : Fin ncpu) (p : Fin nproc) : Prop :=
  l.lock = some c ∧ (l.kernel.proc p).state ≠ .running

instance (c : Fin ncpu) (p : Fin nproc) : Decidable (l.SchedReady c p) :=
  inferInstanceAs (Decidable (_ ∧ _))

/-- The next step of the thread of `p` on CPU `c`. -/
def threadStep (c : Fin ncpu) (p : Fin nproc) :
    Option (LockState nproc ncpu × List (Event nproc)) :=
  match l.place p with
  | .free => none
  | .acquiring r =>
      if l.lock = none then some ((l.setLock (some c)).setPlace p (.holding r), []) else none
  | .holding r => l.section_ c p r
  | .calling =>
      if l.SchedReady c p then some ((l.setPlace p .returning).setMode c .switched, []) else none
  | .returning => some (l.resume p)
  | .releasing => some ((l.setLock none).setPlace p .free, [])

/-- The next step of CPU `c`. -/
def cpuStep (c : Fin ncpu) (winner : Int) :
    Option (LockState nproc ncpu × List (Event nproc)) :=
  match l.mode c with
  | .idle =>
      if l.lock = none then
        some ((l.setLock (some c)).setMode c (.summing (List.finRange nproc) 0), [])
      else none
  | .summing [] _ => some (l.setMode c (.picking winner (List.finRange nproc) 0), [])
  | .summing (p :: rest) num =>
      some (l.setMode c (.summing rest
        (if (l.kernel.proc p).state = .runnable then wrap (num + (l.kernel.proc p).tickets)
          else num)), [])
  | .picking _ [] _ => some (l.setMode c .releasing, [])
  | .picking winner (p :: rest) counter =>
      if (l.kernel.proc p).state ≠ .runnable then
        some (l.setMode c (.picking winner rest counter), [])
      else
        let counter := wrap (counter + (l.kernel.proc p).tickets)
        if counter < winner then some (l.setMode c (.picking winner rest counter), [])
        else some (l.setMode c (.switching winner p), [])
  | .switching winner p =>
      some ((l.setKernel (l.kernel.dispatch c p)).setMode c (.running winner p), [])
  | .running _ p => l.threadStep c p
  | .switched => some ((l.setKernel (l.kernel.setCpu c none)).setMode c .releasing, [])
  | .releasing => some ((l.setLock none).setMode c .idle, [])
  | .acquiring chan =>
      if l.lock = none then some ((l.setLock (some c)).setMode c (.waking chan), []) else none
  | .waking chan =>
      some ((l.setKernel { l.kernel with proc := wakeup1 l.kernel.proc chan }).setMode c
        .releasing, [])

def step : LockAction nproc ncpu → Option (LockState nproc ncpu × List (Event nproc))
  | .userinit =>
      if l.lock = none ∧ l.kernel.initproc = none then
        (findUnused l.kernel.proc).map fun i =>
          ((l.setKernel (l.kernel.startInit i)).setPlace i .returning,
            [.alloc i l.kernel.nextpid])
      else none
  | .call c r => (l.freeOn c).bind fun p =>
      if l.Admits p r then some (l.setPlace p (.acquiring r), []) else none
  | .forkKalloc c ok => (l.freeOn c).bind fun p =>
      match (l.kernel.proc p).forking with
      | some (np, .allocated) =>
          if ok then
            some ((l.setKernel ((l.kernel.setProc np
              { l.kernel.proc np with context := .forkret }).setForking p
                (some (np, .kstack)))).setPlace np .returning, [])
          else some (l.setKernel (l.kernel.abortFork p np),
            [.fork (l.kernel.proc p).pid (-1)])
      | _ => none
  | .forkCopy c ok => (l.freeOn c).bind fun p =>
      match (l.kernel.proc p).forking with
      | some (np, .kstack) =>
          if ok then
            some (l.setKernel ((l.kernel.setProc np
              { l.kernel.proc np with parent := some p }).setForking p (some (np, .copied))), [])
          else some (l.setKernel (l.kernel.abortFork p np),
            [.fork (l.kernel.proc p).pid (-1)])
      | _ => none
  | .settickets c tix => (l.freeOn c).bind fun p =>
      if (l.kernel.proc p).forking = none then
        some (l.setKernel (l.kernel.setProc p { l.kernel.proc p with tickets := tix }), [])
      else none
  | .interrupt c chan =>
      if l.mode c = .idle then some (l.setMode c (.acquiring chan), []) else none
  | .cpu c winner => l.cpuStep c winner

end LockState

end OsCourse.Kernel
