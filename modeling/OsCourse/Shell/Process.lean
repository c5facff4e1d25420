import OsCourse.Lib.SlotTable
import OsCourse.Lib.Transition
import OsCourse.Shell.Syntax

/-! # Running a command tree

`runcmd` is translated into the sequence of system calls it makes. A system
is a set of processes, each with its own descriptor table and the calls it
still has to make; any process may make its next call at any time, and every
call that can fail may fail. Nothing but the creation of pipes is shared.
-/

namespace OsCourse.Shell

/-- The argument of `close` and `dup`: a constant or an element of `int p[2]`. -/
inductive Operand
  | const (fd : Nat)
  | p0
  | p1
  deriving DecidableEq, Repr

/-- The system calls a process makes, in order. `execvp` goes on only when it
fails; `fork` goes on twice. -/
inductive Prog
  | close (fd : Operand) (next : Prog)
  | dup (fd : Operand) (next : Prog)
  | openFile (file : Text) (flags : OpenFlags) (perm : Nat) (next : Prog)
  | pipe (next : Prog)
  | fork (child parent : Prog)
  | execvp (argv : Argv) (next : Prog)
  | wait (next : Prog)
  | exit
  deriving DecidableEq

/-- `runcmd(cmd)` followed by the code `next` after the call. Every case ends in
`exit`, so `next` is never reached; in particular `wait(NULL)` is not. The
result of `open` is not looked at, and the file mode is the decimal 777. -/
def runcmd : Cmd → Prog → Prog
  | .exec argv, _ => if argv[0] = none then .exit else .execvp argv .exit
  | .redir _ cmd file mode fd, _ =>
      .close (.const fd) <| .openFile file { mode with creat := true } 777 <| runcmd cmd .exit
  | .pipe left right, _ =>
      .pipe <| .fork
        (.close (.const 1) <| .dup .p1 <| .close .p0 <| .close .p1 <| runcmd left .exit)
        (.close (.const 0) <| .dup .p0 <| .close .p1 <| .close .p0 <|
          runcmd right (.wait .exit))

/-- What a descriptor refers to. -/
inductive OpenObject
  | inherited (id : Nat)
  | file (name : Text) (flags : OpenFlags)
  | pipeRead (id : Nat)
  | pipeWrite (id : Nat)
  deriving DecidableEq, Repr

abbrev FdTable := SlotTable OpenObject

/-- A process is still making the shell's calls, has replaced its image, has
terminated, or has also been waited for. -/
inductive Status
  | running (code : Prog)
  | execed (argv : Argv)
  | terminated
  | reaped
  deriving DecidableEq

structure Process where
  parent : Option Nat
  status : Status
  p : Nat × Nat
  fds : FdTable
  deriving DecidableEq

structure System where
  procs : List Process
  nextPipe : Nat
  deriving DecidableEq

/-- One process makes its next call, which succeeds or not; a waiting process
collects a terminated child; an executed program terminates. -/
inductive SysAction
  | call (i : Nat) (ok : Bool)
  | reap (i child : Nat)
  | terminate (i : Nat)
  deriving DecidableEq, Repr

/-- The calls that leave a trace outside the process. -/
inductive SysEvent
  | opened (i : Nat) (file : Text) (flags : OpenFlags) (perm : Nat) (ok : Bool)
  | execvp (i : Nat) (argv : Argv) (fds : FdTable)
  deriving DecidableEq

def Operand.eval (p : Nat × Nat) : Operand → Nat
  | .const fd => fd
  | .p0 => p.1
  | .p1 => p.2

namespace Process

/-- Go on with `next` and the descriptor table `fds`. -/
def goOn (pr : Process) (next : Prog) (fds : FdTable) : Process :=
  { pr with status := .running next, fds := fds }

/-- `pipe(p)`: the two lowest free descriptors. -/
def makePipe (pr : Process) (id : Nat) (next : Prog) : Process :=
  let fds := pr.fds.fill (.pipeRead id)
  { pr with
    status := .running next
    p := (pr.fds.lowest, fds.lowest)
    fds := fds.fill (.pipeWrite id) }

/-- `dup(fd)`: the lowest free descriptor, or a failure when `fd` is closed. -/
def dup (fds : FdTable) (fd : Nat) : FdTable :=
  match fds.get fd with
  | some obj => fds.fill obj
  | none => fds

end Process

namespace System

def setProc (sys : System) (i : Nat) (pr : Process) : System :=
  { sys with procs := sys.procs.set i pr }

/-- Process `i` makes the call its code starts with. A failing `pipe` leaves
`p` as it was, a failing `fork` goes on in the parent only. -/
def call (sys : System) (i : Nat) (pr : Process) (ok : Bool) :
    Prog → Option (System × List SysEvent)
  | .close fd next => some (sys.setProc i (pr.goOn next (pr.fds.clear (fd.eval pr.p))), [])
  | .dup fd next => some (sys.setProc i (pr.goOn next (Process.dup pr.fds (fd.eval pr.p))), [])
  | .openFile file flags perm next =>
      let fds := if ok then pr.fds.fill (.file file flags) else pr.fds
      some (sys.setProc i (pr.goOn next fds), [.opened i file flags perm ok])
  | .pipe next =>
      if ok then
        some ({ sys.setProc i (pr.makePipe sys.nextPipe next) with
          nextPipe := sys.nextPipe + 1 }, [])
      else some (sys.setProc i (pr.goOn next pr.fds), [])
  | .fork child parent =>
      let sys' := sys.setProc i (pr.goOn parent pr.fds)
      if ok then
        some ({ sys' with procs := sys'.procs ++
          [{ pr with parent := some i, status := .running child }] }, [])
      else some (sys', [])
  | .execvp argv next =>
      let status := if ok then .execed argv else .running next
      some (sys.setProc i { pr with status := status }, [.execvp i argv pr.fds])
  | .wait next =>
      -- with a child still to be waited for, only `reap` goes on
      if sys.procs.any fun child => child.parent = some i && child.status != .reaped then none
      else some (sys.setProc i (pr.goOn next pr.fds), [])
  | .exit => some (sys.setProc i { pr with status := .terminated }, [])

def step (sys : System) : SysAction → Option (System × List SysEvent)
  | .call i ok =>
      match sys.procs[i]? with
      | some pr =>
          match pr.status with
          | .running code => sys.call i pr ok code
          | _ => none
      | none => none
  | .reap i child =>
      match sys.procs[i]?, sys.procs[child]? with
      | some pr, some ch =>
          match pr.status, ch.status with
          | .running (.wait next), .terminated =>
              if ch.parent = some i then
                some ((sys.setProc child { ch with status := .reaped }).setProc i
                  (pr.goOn next pr.fds), [])
              else none
          | _, _ => none
      | _, _ => none
  | .terminate i =>
      match sys.procs[i]? with
      | some pr =>
          match pr.status with
          | .execed _ => some (sys.setProc i { pr with status := .terminated }, [])
          | _ => none
      | none => none

/-- No process has calls of the shell left to make. -/
def Finished (sys : System) : Prop := ∀ pr ∈ sys.procs, ∀ code, pr.status ≠ .running code

end System

/-- One process about to run a command tree with the descriptors `fds`; `p` is
uninitialized and pipes created from now on are numbered from `nextPipe`. -/
def startCmd (cmd : Cmd) (p : Nat × Nat) (fds : FdTable) (nextPipe : Nat) : System :=
  ⟨[⟨none, .running (runcmd cmd .exit), p, fds⟩], nextPipe⟩

/-- The step condition under which every `pipe`, `fork` and `open` succeeds. -/
def callsSucceed (sys : System) : SysAction → Prop
  | .call i ok =>
      ok = true ∨ ∃ pr ∈ sys.procs[i]?, ∃ argv next, pr.status = .running (.execvp argv next)
  | _ => True

end OsCourse.Shell
