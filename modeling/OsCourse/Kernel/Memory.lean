import OsCourse.Kernel.LockRuns
import OsCourse.Lib.Ledger

/-! # The memory of processes

The kernel with its lock, and what its processes own: `p->kstack`, a page of
`kalloc`, and `p->pgdir`, the page directory of an address space made by `setupkvm`
or `copyuvm`. The allocators themselves are outside: they hand out what is not in
use. `kfree` and `freevm` of a null pointer panic, which has no successor.
-/

namespace OsCourse.Kernel

open Ledger

/-- The fields of `struct proc` that own memory. -/
inductive Pointer
  | kstack
  | pgdir
  deriving DecidableEq, Repr

/-- The kernel, the two pointers of each slot, and the pages in use. -/
structure MemState (Page : Type*) (nproc ncpu : Nat) where
  locked : LockState nproc ncpu
  field : Fin nproc → Pointer → Option Page
  used : Finset Page

/-- A step of the kernel, with what the allocators return in it when they succeed:
`kalloc` a page, `setupkvm` and `copyuvm` a page directory. -/
structure MemAction (Page : Type*) (nproc ncpu : Nat) where
  action : LockAction nproc ncpu
  kalloc : Page
  vm : Page

variable {Page : Type*} {nproc ncpu : Nat}

namespace LockState

variable (l : LockState nproc ncpu)

/-- The slot `fork` on CPU `c` is filling. -/
def newSlot (c : Fin ncpu) : Option (Fin nproc) :=
  (l.freeOn c).bind fun p => (l.kernel.proc p).forking.map Prod.fst

/-- The child that `wait` frees in the next step of CPU `c`. -/
def reaping (c : Fin ncpu) : Option (Fin nproc) :=
  match l.mode c with
  | .running _ p =>
      match l.place p, (l.kernel.proc p).context with
      | .holding .wait, _ => (scanChildren l.kernel.proc p (List.finRange nproc) false).1
      | .returning, .waitSleep =>
          (scanChildren (l.kernel.clearChan p).proc p (List.finRange nproc) false).1
      | _, _ => none
  | _ => none

end LockState

namespace MemState

/-- Before `userinit`. -/
def boot (Page : Type*) (nproc ncpu : Nat) : MemState Page nproc ncpu :=
  ⟨.boot nproc ncpu, fun _ _ => none, ∅⟩

variable [DecidableEq Page] (m : MemState Page nproc ncpu)

/-- Write a pointer of slot `p`. -/
def setField (p : Fin nproc) (f : Pointer) (page : Option Page) : MemState Page nproc ncpu :=
  { m with field := Function.update m.field p (Function.update (m.field p) f page) }

/-- A pointer is set to what an allocator returns, which is not in use. -/
def alloc (p : Fin nproc) (f : Pointer) (page : Page) :
    Option (MemState Page nproc ncpu × List (Entry Page)) :=
  if page ∈ m.used then none
  else some ({ m.setField p f (some page) with used := insert page m.used }, [.alloc page])

/-- What a pointer points to is freed; `kfree(p->kstack)` is followed by `p->kstack = 0`,
`freevm(p->pgdir)` leaves the pointer as it is. -/
def free (p : Fin nproc) (f : Pointer) :
    Option (MemState Page nproc ncpu × List (Entry Page)) :=
  (m.field p f).map fun page =>
    ({ m.setField p f (if f = .kstack then none else some page) with
      used := m.used.erase page }, [.free page])

/-- One after the other. -/
def andThen (r : MemState Page nproc ncpu × List (Entry Page))
    (next : MemState Page nproc ncpu → Option (MemState Page nproc ncpu × List (Entry Page))) :
    Option (MemState Page nproc ncpu × List (Entry Page)) :=
  (next r.1).map fun last => (last.1, r.2 ++ last.2)

/-- What a step does to the memory. -/
def memory (a : MemAction Page nproc ncpu) :
    Option (MemState Page nproc ncpu × List (Entry Page)) :=
  match a.action with
  | .userinit =>
      (findUnused m.locked.kernel.proc).bind fun i =>
        (m.alloc i .kstack a.kalloc).bind fun r => andThen r fun m => m.alloc i .pgdir a.vm
  | .forkKalloc c ok =>
      (m.locked.newSlot c).bind fun np =>
        if ok then m.alloc np .kstack a.kalloc else some (m.setField np .kstack none, [])
  | .forkCopy c ok =>
      (m.locked.newSlot c).bind fun np =>
        if ok then m.alloc np .pgdir a.vm else (m.setField np .pgdir none).free np .kstack
  | .cpu c _ =>
      match m.locked.reaping c with
      | some i => (m.free i .kstack).bind fun r => andThen r fun m => m.free i .pgdir
      | none => some (m, [])
  | _ => some (m, [])

def step (a : MemAction Page nproc ncpu) :
    Option (MemState Page nproc ncpu × List (Entry Page)) :=
  (m.locked.step a.action).bind fun r =>
    (m.memory a).map fun last => ({ last.1 with locked := r.1 }, last.2)

end MemState

end OsCourse.Kernel
