import Mathlib.Data.Fintype.Basic
import OsCourse.Lib.MachineInt

/-! # Process table

The slots of `ptable.proc` and the loops over them that run inside a critical
section. Pointers to a `struct proc` are slot numbers; the fields that no
modelled routine reads (memory image, kernel stack, files, name) are left out.
-/

namespace OsCourse.Kernel

open MachineInt

/-- `enum procstate`. -/
inductive ProcState
  | unused
  | embryo
  | sleeping
  | runnable
  | running
  | zombie
  deriving DecidableEq, Repr

/-- A sleep channel: NULL, the address of a `struct proc`, or another address. -/
inductive Chan (n : Nat)
  | null
  | proc (slot : Fin n)
  | other (addr : Nat)
  deriving DecidableEq, Repr

/-- Where `swtch` resumes a process: at its first run, or after the call of
`sched` in `yield`, in a `sleep` holding another lock, or in the `sleep` of
`wait`. -/
inductive Context
  | forkret
  | yield
  | sleep
  | waitSleep
  deriving DecidableEq, Repr

/-- How far a process has come in `fork` with its new slot: the slot is taken,
its kernel stack is allocated, its parent is set. -/
inductive ForkStage
  | allocated
  | kstack
  | copied
  deriving DecidableEq, Repr

/-- `struct proc`. The `fork` in progress is a local variable of the kernel
thread of the process. -/
structure Proc (n : Nat) where
  state : ProcState
  pid : Int
  parent : Option (Fin n)
  chan : Chan n
  killed : Bool
  tickets : Int
  context : Context
  forking : Option (Fin n × ForkStage)
  deriving DecidableEq

/-- `ptable.proc` with any number of slots. -/
abbrev Table (n : Nat) := Fin n → Proc n

/-- `MAGIC_TICKET_NUM`. -/
def magicTicketNum : Int := 20

/-- A slot as the loader clears it. -/
def Proc.zero (n : Nat) : Proc n := ⟨.unused, 0, none, .null, false, 0, .forkret, none⟩

/-- A pointer used as a channel. -/
def Chan.ofPtr {n : Nat} : Option (Fin n) → Chan n
  | none => .null
  | some slot => .proc slot

section Loops

variable {n : Nat} (t : Table n)

/-- `wakeup1`. -/
def wakeup1 (chan : Chan n) : Table n := fun p =>
  if (t p).state = .sleeping ∧ (t p).chan = chan then { t p with state := .runnable } else t p

/-- The loop of `allocproc`: the first UNUSED slot. -/
def findUnused : Option (Fin n) := (List.finRange n).find? fun p => (t p).state = .unused

/-- The loop of `kill`: the first slot with the given pid. -/
def findPid (pid : Int) : Option (Fin n) := (List.finRange n).find? fun p => (t p).pid = pid

/-- The loop of `wait` for the process `proc`: a ZOMBIE child, and `havekids`. -/
def scanChildren (proc : Fin n) : List (Fin n) → Bool → Option (Fin n) × Bool
  | [], havekids => (none, havekids)
  | p :: rest, havekids =>
      if (t p).parent ≠ some proc then scanChildren proc rest havekids
      else if (t p).state = .zombie then (some p, true)
      else scanChildren proc rest true

/-- The loop of `exit` that passes the children of `proc` to `initproc`. -/
def reparent (proc : Fin n) (initproc : Option (Fin n)) : List (Fin n) → Table n → Table n
  | [], t => t
  | p :: rest, t =>
      if (t p).parent = some proc then
        let t := Function.update t p { t p with parent := initproc }
        reparent proc initproc rest
          (if (t p).state = .zombie then wakeup1 t (.ofPtr initproc) else t)
      else reparent proc initproc rest t

/-- The first loop of `scheduler`: the tickets of the RUNNABLE slots. -/
def sumLoop : List (Fin n) → Int → Int
  | [], num => num
  | p :: rest, num =>
      if (t p).state = .runnable then sumLoop rest (wrap (num + (t p).tickets))
      else sumLoop rest num

def numTickets : Int := sumLoop t (List.finRange n) 0

/-- The second loop of `scheduler`: the slot it switches to. -/
def pickLoop (winner : Int) : List (Fin n) → Int → Option (Fin n)
  | [], _ => none
  | p :: rest, counter =>
      if (t p).state ≠ .runnable then pickLoop winner rest counter
      else
        let counter := wrap (counter + (t p).tickets)
        if counter < winner then pickLoop winner rest counter else some p

def pick (winner : Int) : Option (Fin n) := pickLoop t winner (List.finRange n) 0

end Loops

/-! ## What the loops compute -/

section Specs

variable {n : Nat} {t : Table n}

theorem findUnused_some {p : Fin n} (h : findUnused t = some p) : (t p).state = .unused := by
  simpa using List.find?_some h

theorem findPid_some {pid : Int} {p : Fin n} (h : findPid t pid = some p) :
    (t p).pid = pid := by
  simpa using List.find?_some h

theorem findPid_none {pid : Int} (h : findPid t pid = none) (p : Fin n) : (t p).pid ≠ pid := by
  simpa using List.find?_eq_none.mp h p (List.mem_finRange p)

/-- A slot found by `wait` is a ZOMBIE child. -/
theorem scanChildren_some (proc : Fin n) (slots : List (Fin n)) (havekids : Bool)
    {p : Fin n} (h : (scanChildren t proc slots havekids).1 = some p) :
    (t p).parent = some proc ∧ (t p).state = .zombie := by
  fun_induction scanChildren t proc slots havekids with
  | case1 => cases h
  | case2 q rest havekids hparent ih => exact ih h
  | case3 q rest havekids hparent hzombie =>
      cases h
      exact ⟨by simpa using hparent, hzombie⟩
  | case4 q rest havekids hparent hzombie ih => exact ih h

/-- Without a ZOMBIE child the scan has seen every child. -/
theorem scanChildren_none (proc : Fin n) (slots : List (Fin n)) (havekids : Bool)
    (h : (scanChildren t proc slots havekids).1 = none) :
    (∀ p ∈ slots, (t p).parent = some proc → (t p).state ≠ .zombie) ∧
      ((scanChildren t proc slots havekids).2 = true ↔
        havekids = true ∨ ∃ p ∈ slots, (t p).parent = some proc) := by
  fun_induction scanChildren t proc slots havekids with
  | case1 havekids => simp
  | case2 q rest havekids hparent ih =>
      obtain ⟨hzombie, hkids⟩ := ih h
      simp only [List.forall_mem_cons, List.exists_mem_cons_iff]
      exact ⟨⟨fun heq => absurd heq hparent, hzombie⟩, by simp [hkids, hparent]⟩
  | case3 q rest havekids hparent hzombie => cases h
  | case4 q rest havekids hparent hnot ih =>
      obtain ⟨hzombie, hkids⟩ := ih h
      simp only [ne_eq, Decidable.not_not] at hparent
      simp only [List.forall_mem_cons, List.exists_mem_cons_iff]
      exact ⟨⟨fun _ => hnot, hzombie⟩, by simp [hkids, hparent]⟩

/-- A selected slot is RUNNABLE. -/
theorem pickLoop_some (winner : Int) (slots : List (Fin n)) (counter : Int) {p : Fin n}
    (h : pickLoop t winner slots counter = some p) : (t p).state = .runnable := by
  fun_induction pickLoop t winner slots counter with
  | case1 => cases h
  | case2 q rest counter hstate ih => exact ih h
  | case3 q rest counter hstate counter' hlt ih => exact ih h
  | case4 q rest counter hstate counter' hlt =>
      cases h
      simpa using hstate

theorem pick_runnable {winner : Int} {p : Fin n} (h : pick t winner = some p) :
    (t p).state = .runnable :=
  pickLoop_some winner _ 0 h

end Specs

end OsCourse.Kernel
