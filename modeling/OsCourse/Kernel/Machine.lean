import OsCourse.Kernel.Proc
import OsCourse.Lib.Transition

/-! # The kernel as a transition system

Any number of CPUs share the process table. One step is one critical section
of `ptable.lock`, or one of the writes `fork` makes without the lock; between
two steps the lock is free. Whatever the kernel does not decide itself (which
CPU acts next, whether memory runs out, the winner of a lottery, the arguments
of system calls) is part of the action. A `panic` has no successor.
-/

namespace OsCourse.Kernel

open MachineInt

/-- `ptable.proc`, the per-CPU variable `proc`, `initproc` and `nextpid`. -/
structure State (nproc ncpu : Nat) where
  proc : Table nproc
  cpu : Fin ncpu → Option (Fin nproc)
  initproc : Option (Fin nproc)
  nextpid : Int

inductive Action (nproc ncpu : Nat)
  /-- `userinit` -/
  | userinit
  /-- `fork`: the critical section of `allocproc` -/
  | forkAlloc (c : Fin ncpu)
  /-- `fork`: `kalloc` in `allocproc` -/
  | forkKalloc (c : Fin ncpu) (ok : Bool)
  /-- `fork`: `copyuvm`, then the writes up to the critical section -/
  | forkCopy (c : Fin ncpu) (ok : Bool)
  /-- `fork`: the critical section that makes the child RUNNABLE -/
  | forkFinish (c : Fin ncpu)
  | exit (c : Fin ncpu)
  | wait (c : Fin ncpu)
  /-- `sleep` with a lock other than `ptable.lock` -/
  | sleep (c : Fin ncpu) (chan : Chan nproc)
  | wakeup (chan : Chan nproc)
  | kill (c : Fin ncpu) (pid : Int)
  | yield (c : Fin ncpu)
  /-- one pass of the loop of `scheduler` -/
  | scheduler (c : Fin ncpu) (winner : Int)
  /-- `sys_settickets` -/
  | settickets (c : Fin ncpu) (tix : Int)
  deriving DecidableEq, Repr

/-- What a step lets others observe: a pid given to a slot, a slot switched to,
an exit, and the results of system calls, with the pid of the calling process. -/
inductive Event (nproc : Nat)
  | alloc (slot : Fin nproc) (pid : Int)
  | fork (caller ret : Int)
  | exit (pid : Int)
  | wait (caller ret : Int)
  | kill (pid ret : Int)
  | switch (slot : Fin nproc)
  deriving DecidableEq, Repr

variable {nproc ncpu : Nat}

namespace State

/-- The state before `userinit`: everything is zero except `nextpid`. -/
def boot (nproc ncpu : Nat) : State nproc ncpu := ⟨fun _ => .zero nproc, fun _ => none, none, 1⟩

variable (k : State nproc ncpu)

/-- Write one slot. -/
def setProc (i : Fin nproc) (p : Proc nproc) : State nproc ncpu :=
  { k with proc := Function.update k.proc i p }

/-- Write the per-CPU variable `proc`. -/
def setCpu (c : Fin ncpu) (proc : Option (Fin nproc)) : State nproc ncpu :=
  { k with cpu := Function.update k.cpu c proc }

@[simp] theorem setProc_proc (i : Fin nproc) (p : Proc nproc) (q : Fin nproc) :
    (k.setProc i p).proc q = if q = i then p else k.proc q :=
  Function.update_apply ..

/-- A write that keeps what `f` sees of its slot keeps what `f` sees of all slots. -/
theorem setProc_keeps {α : Type*} (f : Proc nproc → α) {i : Fin nproc} {p : Proc nproc}
    (h : f p = f (k.proc i)) (q : Fin nproc) : f ((k.setProc i p).proc q) = f (k.proc q) := by
  rw [setProc_proc]
  split
  next heq => rw [heq, h]
  next => rfl

@[simp] theorem setProc_cpu (i : Fin nproc) (p : Proc nproc) : (k.setProc i p).cpu = k.cpu := rfl

@[simp] theorem setProc_initproc (i : Fin nproc) (p : Proc nproc) :
    (k.setProc i p).initproc = k.initproc := rfl

@[simp] theorem setCpu_proc (c : Fin ncpu) (proc : Option (Fin nproc)) :
    (k.setCpu c proc).proc = k.proc := rfl

@[simp] theorem setCpu_cpu (c d : Fin ncpu) (proc : Option (Fin nproc)) :
    (k.setCpu c proc).cpu d = if d = c then proc else k.cpu d :=
  Function.update_apply ..

/-- `allocproc` takes a slot. -/
def allocSlot (np : Fin nproc) : State nproc ncpu :=
  { k.setProc np { k.proc np with
      state := .embryo, pid := k.nextpid, tickets := magicTicketNum } with
    nextpid := wrap (k.nextpid + 1) }

/-- The process `p` stands at a stage of `fork`. -/
def setForking (p : Fin nproc) (stage : Option (Fin nproc × ForkStage)) : State nproc ncpu :=
  k.setProc p { k.proc p with forking := stage }

/-- A step of `fork` that keeps what `f` sees of the new slot. -/
theorem setForking_keeps {α : Type*} (f : Proc nproc → α)
    (hstage : ∀ (p : Proc nproc) stage, f { p with forking := stage } = f p) {p np : Fin nproc}
    {slot : Proc nproc} {stage : Option (Fin nproc × ForkStage)} (h : f slot = f (k.proc np))
    (q : Fin nproc) : f (((k.setProc np slot).setForking p stage).proc q) = f (k.proc q) := by
  rw [setForking, setProc_keeps _ f (hstage _ _), setProc_keeps k f h]

/-- A failed `fork` gives its slot back. -/
def abortFork (p np : Fin nproc) : State nproc ncpu :=
  (k.setProc np { k.proc np with state := .unused }).setForking p none

/-- `userinit` with the slot `i`. -/
def startInit (i : Fin nproc) : State nproc ncpu :=
  { (k.allocSlot i).setProc i { (k.allocSlot i).proc i with
      context := .forkret, state := .runnable } with
    initproc := some i }

/-- The critical section of `exit` of process `p` on CPU `c`. -/
def exitProc (c : Fin ncpu) (p : Fin nproc) : State nproc ncpu :=
  let t := wakeup1 k.proc (.ofPtr (k.proc p).parent)
  let t := reparent p k.initproc (List.finRange nproc) t
  { k with proc := Function.update t p { t p with state := .zombie } }.setCpu c none

/-- `wait` frees the slot of a ZOMBIE child. -/
def reap (i : Fin nproc) : State nproc ncpu :=
  k.setProc i { k.proc i with state := .unused, pid := 0, parent := none, killed := false }

/-- Give up the CPU: the state and context of `p` are saved and `sched` returns
to the scheduler of CPU `c`. -/
def sched (c : Fin ncpu) (p : Fin nproc) (state : ProcState) (chan : Chan nproc)
    (context : Context) : State nproc ncpu :=
  (k.setProc p { k.proc p with state := state, chan := chan, context := context }).setCpu c none

/-- The body of `kill` for a slot it found. -/
def markKilled (i : Fin nproc) : State nproc ncpu :=
  k.setProc i { k.proc i with
    killed := true
    state := if (k.proc i).state = .sleeping then .runnable else (k.proc i).state }

/-- The scheduler of CPU `c` switches to `p`. -/
def dispatch (c : Fin ncpu) (p : Fin nproc) : State nproc ncpu :=
  (k.setProc p { k.proc p with state := .running }).setCpu c (some p)

/-- `proc->chan = 0` after `sched` returns in `sleep`. -/
def clearChan (p : Fin nproc) : State nproc ncpu :=
  k.setProc p { k.proc p with chan := .null }

/-- One turn of the loop of `wait` by `p` on CPU `c`, up to the release of the
lock: reap a child, fail, or sleep. -/
def waitTurn (c : Fin ncpu) (p : Fin nproc) : State nproc ncpu × List (Event nproc) :=
  match scanChildren k.proc p (List.finRange nproc) false with
  | (some i, _) => (k.reap i, [.wait (k.proc p).pid (k.proc i).pid])
  | (none, havekids) =>
      if !havekids || (k.proc p).killed then (k, [.wait (k.proc p).pid (-1)])
      else (k.sched c p .sleeping (.proc p) .waitSleep, [])

/-- What `p` does when it is switched to, up to the release of the lock. -/
def resume (c : Fin ncpu) (p : Fin nproc) : State nproc ncpu × List (Event nproc) :=
  match (k.proc p).context with
  | .forkret => (k, [])
  | .yield => (k, [])
  | .sleep => (k.clearChan p, [])
  | .waitSleep => (k.clearChan p).waitTurn c p

/-- The process on CPU `c`, when it is not inside `fork`. -/
def caller (c : Fin ncpu) : Option (Fin nproc) :=
  (k.cpu c).filter fun p => (k.proc p).forking = none

/-- The process on CPU `c` and its new slot, when it is at the given stage of
`fork`. -/
def forkingAt (c : Fin ncpu) (stage : ForkStage) : Option (Fin nproc × Fin nproc) :=
  (k.cpu c).bind fun p =>
    match (k.proc p).forking with
    | some (np, s) => if s = stage then some (p, np) else none
    | none => none

def step : Action nproc ncpu → Option (State nproc ncpu × List (Event nproc))
  | .userinit =>
      if k.initproc = none then
        (findUnused k.proc).map fun i => (k.startInit i, [.alloc i k.nextpid])
      else none
  | .forkAlloc c => (k.caller c).map fun p =>
      match findUnused k.proc with
      | none => (k, [.fork (k.proc p).pid (-1)])
      | some np => ((k.allocSlot np).setForking p (some (np, .allocated)),
          [.alloc np k.nextpid])
  | .forkKalloc c ok => (k.forkingAt c .allocated).map fun (p, np) =>
      if ok then
        ((k.setProc np { k.proc np with context := .forkret }).setForking p
          (some (np, .kstack)), [])
      else (k.abortFork p np, [.fork (k.proc p).pid (-1)])
  | .forkCopy c ok => (k.forkingAt c .kstack).map fun (p, np) =>
      if ok then
        ((k.setProc np { k.proc np with parent := some p }).setForking p
          (some (np, .copied)), [])
      else (k.abortFork p np, [.fork (k.proc p).pid (-1)])
  | .forkFinish c => (k.forkingAt c .copied).map fun (p, np) =>
      ((k.setProc np { k.proc np with state := .runnable }).setForking p none,
        [.fork (k.proc p).pid (k.proc np).pid])
  | .exit c => (k.caller c).bind fun p =>
      if k.initproc = some p then none
      else some (k.exitProc c p, [.exit (k.proc p).pid])
  | .wait c => (k.caller c).map fun p => k.waitTurn c p
  | .sleep c chan => (k.caller c).map fun p => (k.sched c p .sleeping chan .sleep, [])
  | .wakeup chan => some ({ k with proc := wakeup1 k.proc chan }, [])
  | .kill c pid => (k.caller c).map fun _ =>
      match findPid k.proc pid with
      | none => (k, [.kill pid (-1)])
      | some i => (k.markKilled i, [.kill pid 0])
  | .yield c => (k.cpu c).map fun p => (k.sched c p .runnable (k.proc p).chan .yield, [])
  | .scheduler c winner =>
      if k.cpu c = none then
        match pick k.proc winner with
        | none => some (k, [])
        | some p =>
            let r := (k.dispatch c p).resume c p
            some (r.1, .switch p :: r.2)
      else none
  | .settickets c tix => (k.caller c).map fun p =>
      (k.setProc p { k.proc p with tickets := tix }, [])

end State

end OsCourse.Kernel
