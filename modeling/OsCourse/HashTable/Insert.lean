import Mathlib.Logic.Function.Basic
import OsCourse.Lib.Transition

/-! # Concurrent hash table

The table of `hw4`: an array of chained buckets in shared memory, into which
threads insert. One step is one load or store of shared memory, one `malloc`,
or one lock operation; an `insert` is a sequence of steps of its thread. The
programs differ in the locks they take, so the locks are a parameter.
-/

namespace OsCourse.HashTable

/-- `NUM_BUCKETS`. -/
def numBuckets : Nat := 5

abbrev Bucket := Fin numBuckets

/-- `key % NUM_BUCKETS` for a key that is not negative; with a negative key it
would not be an index. -/
def bucketOf (key : Nat) : Bucket := ⟨key % numBuckets, Nat.mod_lt key (by decide)⟩

/-- The address of a `bucket_entry`. -/
abbrev Addr := Nat

/-- `bucket_entry`, with `none` for a field that has not been written since
`malloc`. A NULL pointer is `some none` in the field `next`. -/
structure BucketEntry where
  key : Option Nat
  val : Option Int
  next : Option (Option Addr)
  deriving DecidableEq, Repr

/-- What the thread of an `insert` does next. -/
inductive Stage
  /-- acquire the lock of the bucket -/
  | lock
  /-- load `table[i]` -/
  | load
  /-- store the loaded pointer in `e->next` -/
  | next (head : Option Addr)
  /-- store `e->key` -/
  | key
  /-- store `e->val` -/
  | val
  /-- store `e` in `table[i]` -/
  | store
  /-- release the lock -/
  | unlock
  deriving DecidableEq, Repr

/-- An `insert(key, val)` in progress with its entry `e`. -/
structure Frame where
  key : Nat
  val : Int
  e : Addr
  stage : Stage
  deriving DecidableEq, Repr

/-- A thread: the `insert` it is in, and the calls it has still to make. -/
structure Thread where
  frame : Option Frame
  calls : List (Nat × Int)
  deriving DecidableEq, Repr

/-- Shared memory, the threads that hold the locks, and the threads. -/
structure State (τ Lock : Type*) where
  heap : Addr → Option BucketEntry
  table : Bucket → Option Addr
  holder : Lock → Option τ
  thread : τ → Thread

inductive Action (τ : Type*)
  /-- the thread enters its next `insert`, and `malloc` returns `e` -/
  | malloc (t : τ) (e : Addr)
  /-- the thread does its next step -/
  | run (t : τ)

/-- An entry became part of the table. -/
structure Inserted (τ : Type*) where
  thread : τ
  key : Nat
  val : Int
  entry : Addr
  deriving DecidableEq

variable {τ Lock : Type*} [DecidableEq τ] [DecidableEq Lock]

namespace State

variable (s : State τ Lock)

/-- The state before the first step, with the calls each thread is to make. -/
def start (calls : τ → List (Nat × Int)) : State τ Lock :=
  ⟨fun _ => none, fun _ => none, fun _ => none, fun t => ⟨none, calls t⟩⟩

/-- The thread is in an `insert`, or between two. -/
def setFrame (t : τ) (frame : Option Frame) : State τ Lock :=
  { s with thread := Function.update s.thread t { s.thread t with frame := frame } }

/-- The thread goes on to a stage of its `insert`. -/
def goTo (t : τ) (f : Frame) (stage : Stage) : State τ Lock :=
  s.setFrame t (some { f with stage := stage })

def setEntry (a : Addr) (entry : BucketEntry) : State τ Lock :=
  { s with heap := Function.update s.heap a (some entry) }

def setTable (b : Bucket) (ptr : Option Addr) : State τ Lock :=
  { s with table := Function.update s.table b ptr }

def setHolder (l : Lock) (t : Option τ) : State τ Lock :=
  { s with holder := Function.update s.holder l t }

variable (lockOf : Bucket → Option Lock)

/-- The stage after `malloc`. -/
def firstStage (key : Nat) : Stage := if (lockOf (bucketOf key)).isSome then .lock else .load

/-- The next step of a thread inside `insert`. -/
def advance (t : τ) (f : Frame) : Option (State τ Lock × List (Inserted τ)) :=
  match f.stage with
  | .lock =>
      (lockOf (bucketOf f.key)).bind fun l =>
        if s.holder l = none then some ((s.setHolder l (some t)).goTo t f .load, []) else none
  | .load => some (s.goTo t f (.next (s.table (bucketOf f.key))), [])
  | .next head =>
      (s.heap f.e).map fun e => ((s.setEntry f.e { e with next := some head }).goTo t f .key, [])
  | .key =>
      (s.heap f.e).map fun e => ((s.setEntry f.e { e with key := some f.key }).goTo t f .val, [])
  | .val =>
      (s.heap f.e).map fun e =>
        ((s.setEntry f.e { e with val := some f.val }).goTo t f .store, [])
  | .store =>
      let s' := s.setTable (bucketOf f.key) (some f.e)
      some (if (lockOf (bucketOf f.key)).isSome then s'.goTo t f .unlock else s'.setFrame t none,
        [⟨t, f.key, f.val, f.e⟩])
  | .unlock =>
      (lockOf (bucketOf f.key)).map fun l => ((s.setHolder l none).setFrame t none, [])

def step : Action τ → Option (State τ Lock × List (Inserted τ))
  | .malloc t e =>
      match s.thread t with
      | ⟨none, (key, val) :: calls⟩ =>
          if s.heap e = none then
            some ({ s.setEntry e ⟨none, none, none⟩ with
              thread := Function.update s.thread t
                ⟨some ⟨key, val, e, firstStage lockOf key⟩, calls⟩ }, [])
          else none
      | _ => none
  | .run t => (s.thread t).frame.bind fun f => s.advance lockOf t f

end State

/-- `parallel_mutex.c`: `locks[i]`. -/
def mutexLocks : Bucket → Option Bucket := some

/-- `parallel_spin.c`: `spinlock`. -/
def spinlock : Bucket → Option Unit := fun _ => some ()

/-- The loop of `retrieve` from `b` on, for at most `fuel` entries; no result
stands for a loop that goes on or a read of memory that was not written. -/
def retrieveLoop (heap : Addr → Option BucketEntry) (key : Nat) :
    Nat → Option Addr → Option (Option Addr)
  | _, none => some none
  | 0, some _ => none
  | fuel + 1, some b =>
      (heap b).bind fun e => e.key.bind fun k =>
        if k = key then some (some b) else e.next.bind fun next => retrieveLoop heap key fuel next

/-- `retrieve`. -/
def State.retrieve (s : State τ Lock) (fuel : Nat) (key : Nat) : Option (Option Addr) :=
  retrieveLoop s.heap key fuel (s.table (bucketOf key))

end OsCourse.HashTable
