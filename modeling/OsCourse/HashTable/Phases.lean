import OsCourse.HashTable.Insert
import OsCourse.Lib.MachineInt

/-! # The two phases

`main` of `parallel_mutex.c` and `parallel_spin.c` starts `num_threads` threads
that insert the keys, joins them, starts as many threads that look the keys up,
and adds up what these report as lost. Thread `i` of either phase takes the
keys at `i`, `i + num_threads` and so on.
-/

namespace OsCourse.HashTable

open MachineInt

/-- Where a thread of `put_phase` or `get_phase` is. -/
inductive Worker
  /-- not created yet -/
  | absent
  /-- `put_phase` at the test of its loop -/
  | put (key : Int)
  /-- `put_phase` in `insert(keys[key], tid)` -/
  | inserting (key : Int)
  /-- `put_phase` has exited -/
  | putDone
  /-- `get_phase` at the test of its loop -/
  | get (key : Int) (lost : Nat)
  /-- `retrieve(keys[key])` at the test of its loop -/
  | probe (key : Int) (lost : Nat) (b : Option Addr)
  /-- `retrieve(keys[key])` at `b = b->next` -/
  | follow (key : Int) (lost : Nat) (b : Addr)
  /-- `get_phase` has exited with its result -/
  | returned (lost : Nat)
  deriving DecidableEq, Repr

/-- The loops of `main` over the threads, in order. -/
inductive MainLoop
  | createPut
  | joinPut
  | createGet
  | joinGet
  | done
  deriving DecidableEq, Repr

/-- `main`: the loop it is in, and its variables `i` and `total_lost`. -/
structure Main where
  loop : MainLoop
  i : Nat
  totalLost : Nat
  deriving DecidableEq, Repr

/-- The process: memory with the calls of `insert` in it, `main`, and the
threads. `n` is `num_threads`. -/
structure Program (n : Nat) (Lock : Type*) where
  memory : State (Fin n) Lock
  main : Main
  worker : Fin n → Worker

inductive ProgramAction (n : Nat)
  /-- a step of `main` -/
  | main
  /-- a step of a thread in its loop or in `retrieve` -/
  | worker (i : Fin n)
  /-- a step of a thread in `insert` -/
  | memory (a : Action (Fin n))

/-- The thread is to make one more call. -/
def State.giveCall {τ Lock : Type*} [DecidableEq τ] (s : State τ Lock) (t : τ)
    (call : Nat × Int) : State τ Lock :=
  { s with
    thread := Function.update s.thread t ⟨(s.thread t).frame, (s.thread t).calls ++ [call]⟩ }

/-- `keys[key]`, when the index is inside the array. -/
def keyAt (keys : List Nat) (key : Int) : Option Nat :=
  if key < 0 then none else keys[key.toNat]?

namespace Program

variable {n : Nat} {Lock : Type*} (p : Program n Lock)

/-- Before the first loop of `main`: empty table, locks initialised. -/
def start : Program n Lock :=
  ⟨State.start fun _ => [], ⟨.createPut, 0, 0⟩, fun _ => .absent⟩

def setWorker (i : Fin n) (w : Worker) : Program n Lock :=
  { p with worker := Function.update p.worker i w }

def setMain (main : Main) : Program n Lock := { p with main := main }

/-- The body of the loop that `main` is in, for thread `i`. -/
def mainBody (i : Fin n) : Option (Program n Lock) :=
  match p.main.loop with
  | .createPut =>
      some ((p.setWorker i (.put (wrap i))).setMain { p.main with i := p.main.i + 1 })
  | .joinPut =>
      if p.worker i = .putDone then some (p.setMain { p.main with i := p.main.i + 1 }) else none
  | .createGet =>
      some ((p.setWorker i (.get (wrap i) 0)).setMain { p.main with i := p.main.i + 1 })
  | .joinGet =>
      match p.worker i with
      | .returned lost =>
          some (p.setMain ⟨.joinGet, p.main.i + 1, p.main.totalLost + lost⟩)
      | _ => none
  | .done => none

/-- The end of the loop that `main` is in. -/
def mainEnd : Option (Program n Lock) :=
  match p.main.loop with
  | .createPut => some (p.setMain ⟨.joinPut, 0, p.main.totalLost⟩)
  | .joinPut => some (p.setMain ⟨.createGet, 0, p.main.totalLost⟩)
  | .createGet => some (p.setMain ⟨.joinGet, 0, 0⟩)
  | .joinGet => some (p.setMain ⟨.done, 0, p.main.totalLost⟩)
  | .done => none

def mainStep : Option (Program n Lock) :=
  if h : p.main.i < n then p.mainBody ⟨p.main.i, h⟩ else p.mainEnd

/-- `put_phase` and `get_phase`, with the loop of `retrieve`. -/
def workerStep (keys : List Nat) (i : Fin n) : Option (Program n Lock) :=
  match p.worker i with
  | .absent | .putDone | .returned _ => none
  | .put key =>
      if key < keys.length then
        (keyAt keys key).map fun k =>
          { p.setWorker i (.inserting key) with memory := p.memory.giveCall i (k, wrap i) }
      else some (p.setWorker i .putDone)
  | .inserting key =>
      if p.memory.thread i = ⟨none, []⟩ then some (p.setWorker i (.put (wrap (key + n))))
      else none
  | .get key lost =>
      if key < keys.length then
        (keyAt keys key).map fun k =>
          p.setWorker i (.probe key lost (p.memory.table (bucketOf k)))
      else some (p.setWorker i (.returned lost))
  | .probe key lost none => some (p.setWorker i (.get (wrap (key + n)) (lost + 1)))
  | .probe key lost (some b) =>
      (keyAt keys key).bind fun k => (p.memory.heap b).bind fun e => e.key.map fun k' =>
        p.setWorker i (if k' = k then .get (wrap (key + n)) lost else .follow key lost b)
  | .follow key lost b =>
      (p.memory.heap b).bind fun e => e.next.map fun next =>
        p.setWorker i (.probe key lost next)

def step [DecidableEq Lock] (lockOf : Bucket → Option Lock) (keys : List Nat) :
    ProgramAction n → Option (Program n Lock × List (Inserted (Fin n)))
  | .main => p.mainStep.map fun q => (q, [])
  | .worker i => (p.workerStep keys i).map fun q => (q, [])
  | .memory a => (p.memory.step lockOf a).map fun r => ({ p with memory := r.1 }, r.2)

end Program

end OsCourse.HashTable
