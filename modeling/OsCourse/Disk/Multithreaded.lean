import Mathlib.Algebra.Order.BigOperators.Group.Finset
import Mathlib.Tactic.Ring
import OsCourse.Disk.Words
import OsCourse.Lib.MachineInt
import OsCourse.Lib.Transition

/-! # Reading with several threads

`disk_read` of `run_multithreaded.c` starts `num_threads` threads. Thread `i`
reads the blocks `i`, `i + num_threads` and so on until it finds nothing; its
results are combined when it is joined. The threads run in any order.
-/

namespace OsCourse.Disk

open Combine MachineInt Transition

/-- The conversion of an exact result to `unsigned long`. -/
def toUlong (x : Int) : Int := x % 2 ^ 64

/-- The bytes `pread` delivers: none beyond the end of the file, and none for an
offset that is negative as an `off_t`. -/
def pread (file : Bytes) (count : Nat) (offset : Int) : Bytes :=
  if offset < 2 ^ 63 then (file.drop offset.toNat).take count else []

/-- A thread: not created yet, at the `pread` of its loop, or exited. -/
inductive ThreadState
  | absent
  | reading (offset count : Int)
  | exited
  deriving DecidableEq, Repr

/-- The loops of `disk_read` over the threads. -/
inductive ReaderLoop
  | create
  | join
  | done
  deriving DecidableEq, Repr

/-- `disk_read` with its variables `i` and `xor`, and the threads with their
`thread_args`. -/
structure Reader (n : Nat) where
  loop : ReaderLoop
  i : Nat
  xor : UInt32
  thread : Fin n → ThreadState
  threadXor : Fin n → UInt32

inductive ReaderAction (n : Nat)
  | main
  | thread (i : Fin n)

/-- A call of `pread`. -/
structure PreadCall (n : Nat) where
  thread : Fin n
  offset : Int

namespace Reader

variable {n : Nat} (file : Bytes) (block : Nat) (r : Reader n)

/-- After the threads' arguments are initialised. -/
def start : Reader n := ⟨.create, 0, 0, fun _ => .absent, fun _ => 0⟩

def setThread (i : Fin n) (state : ThreadState) : Reader n :=
  { r with thread := Function.update r.thread i state }

/-- One turn of the loop `disk_read` is in. The first offset of a thread is a
product of `int`s. -/
def mainStep : Option (Reader n) :=
  match r.loop with
  | .create =>
      if h : r.i < n then
        some { r.setThread ⟨r.i, h⟩ (.reading (toUlong (wrap (r.i * block))) 0) with i := r.i + 1 }
      else some { r with loop := .join, i := 0 }
  | .join =>
      if h : r.i < n then
        if r.thread ⟨r.i, h⟩ = .exited then
          some { r with i := r.i + 1, xor := r.xor ^^^ r.threadXor ⟨r.i, h⟩ }
        else none
      else some { r with loop := .done }
  | .done => none

/-- One turn of the loop of `thread_read`. -/
def threadStep (i : Fin n) : Option (Reader n × List (PreadCall n)) :=
  match r.thread i with
  | .reading offset count =>
      let data := pread file block offset
      if data = [] then some (r.setThread i .exited, [⟨i, offset⟩])
      else
        let count' := wrap (count + 1)
        some ({ r.setThread i (.reading (toUlong ((n * count' + i) * block)) count') with
          threadXor := Function.update r.threadXor i (r.threadXor i ^^^ xorChunk data) },
          [⟨i, offset⟩])
  | _ => none

def step : ReaderAction n → Option (Reader n × List (PreadCall n))
  | .main => (r.mainStep block).map fun r => (r, [])
  | .thread i => r.threadStep file block i

end Reader

/-- What `disk_read` guarantees, in whatever order the threads run. -/
structure Computes (file : Bytes) (block n : Nat) (result : UInt32) : Prop where
  /-- At the end `xor` is the result. -/
  finished : ∀ history (r : Reader n), Reach (Reader.step file block) anyStep Reader.start
    history r → r.loop = .done → r.xor = result
  /-- Before the end some step can be taken. -/
  unblocked : ∀ history (r : Reader n), Reach (Reader.step file block) anyStep Reader.start
    history r → r.loop ≠ .done → ∃ a, (r.step file block a).isSome
  /-- No run goes on for ever. -/
  bounded : ∃ bound, ∀ actions, (run (Reader.step file block) (Reader.start : Reader n)
    actions).isSome → actions.length ≤ bound

/-- The arithmetic of the threads does not overflow. -/
structure ReaderFits (file : Bytes) (block n : Nat) : Prop where
  threads : 0 < n
  block_pos : 0 < block
  aligned : 4 ∣ block
  block_le : (block : Int) ≤ intMax
  products : ∀ i < n, ((i * block : Nat) : Int) ≤ intMax
  counts : ∀ i < n, ∀ k, (k * n + i) * block < file.length → ((k + 1 : Nat) : Int) ≤ intMax

/-! ## Offsets -/

section Offsets

variable {file : Bytes} {block n : Nat} (h : ReaderFits file block n)
include h

theorem ReaderFits.stride_le : n * block ≤ 2 ^ 32 := by
  have hlast := h.products (n - 1) (by have := h.threads; omega)
  have hsplit : n * block = (n - 1) * block + block := by
    rw [← Nat.succ_mul, Nat.succ_eq_add_one, Nat.sub_add_cancel h.threads]
  have hblock := h.block_le
  unfold intMax at hlast hblock
  omega

theorem ReaderFits.length_lt : file.length < 2 ^ 63 := by
  by_contra hlong
  have hstride := h.stride_le
  have hcount := h.counts 0 h.threads (2 ^ 31 - 1) (by
    calc ((2 ^ 31 - 1) * n + 0) * block
        = (2 ^ 31 - 1) * (n * block) := by rw [Nat.add_zero, Nat.mul_assoc]
      _ ≤ (2 ^ 31 - 1) * 2 ^ 32 := Nat.mul_le_mul_left _ hstride
      _ < file.length := by omega)
  unfold intMax at hcount
  omega

/-- The offsets of a thread are exact up to the first one beyond the file. -/
theorem ReaderFits.offset_lt {i k : Nat} (hi : i < n)
    (hinside : ∀ j < k, (j * n + i) * block < file.length) : (k * n + i) * block < 2 ^ 64 := by
  cases k with
  | zero =>
      have hfirst := h.products i hi
      unfold intMax at hfirst
      rw [Nat.zero_mul, Nat.zero_add]
      omega
  | succ k =>
      have hprior := hinside k (Nat.lt_succ_self k)
      have hlength := h.length_lt
      have hstride := h.stride_le
      have hsplit : ((k + 1) * n + i) * block = (k * n + i) * block + n * block := by ring
      omega

theorem ReaderFits.pread_eq (m : Nat) :
    pread file block ((m * block : Nat) : Int) = (file.drop (m * block)).take block := by
  have hlength := h.length_lt
  rw [pread]
  split
  · rfl
  next hge =>
    rw [List.drop_of_length_le (by omega), List.take_nil]

theorem ReaderFits.pread_eq_nil_iff (m : Nat) :
    pread file block ((m * block : Nat) : Int) = [] ↔ file.length ≤ m * block := by
  rw [h.pread_eq, List.take_eq_nil_iff, List.drop_eq_nil_iff]
  have hpos := h.block_pos
  constructor
  · rintro (hzero | hle)
    · omega
    · exact hle
  · exact Or.inr

end Offsets

/-! ## Blocks -/

/-- The exclusive or of the words of a block. -/
def blockXor (file : Bytes) (block m : Nat) : UInt32 :=
  xorAll (words ((file.drop (m * block)).take block))

/-- What thread `i` of `n` has after `k` blocks. -/
def strideXor (file : Bytes) (block n i k : Nat) : UInt32 :=
  xorAll ((List.range k).map fun j => blockXor file block (j * n + i))

theorem strideXor_succ (file : Bytes) (block n i k : Nat) :
    strideXor file block n i (k + 1) =
      strideXor file block n i k ^^^ blockXor file block (k * n + i) := by
  rw [strideXor, List.range_succ, List.map_append, xorAll_append, strideXor]
  simp [xorAll]

theorem blockXor_beyond {file : Bytes} {block m : Nat} (h : file.length ≤ m * block) :
    blockXor file block m = 0 := by
  rw [blockXor, List.drop_of_length_le h, List.take_nil]
  rfl

/-- Beyond the end of the file a thread finds nothing more. -/
theorem strideXor_beyond {file : Bytes} {block n i k k' : Nat} (hk : k ≤ k')
    (h : file.length ≤ (k * n + i) * block) :
    strideXor file block n i k' = strideXor file block n i k := by
  induction k', hk using Nat.le_induction with
  | base => rfl
  | succ k' hk ih =>
      have hbeyond : file.length ≤ (k' * n + i) * block := by
        refine h.trans (Nat.mul_le_mul_right _ ?_)
        exact Nat.add_le_add_right (Nat.mul_le_mul_right _ hk) _
      rw [strideXor_succ, blockXor_beyond hbeyond, UInt32.xor_zero, ih]

/-- The blocks of a file make up the file. -/
theorem xorAll_blocks {block : Nat} (halign : 4 ∣ block) (file : Bytes) (count : Nat) :
    xorAll ((List.range count).map (blockXor file block)) =
      xorAll (words (file.take (count * block))) := by
  induction count with
  | zero => simp [words, xorAll]
  | succ count ih =>
      have hwhole := xorAll_words_take (halign.mul_left count) (file.take ((count + 1) * block))
      have hblocks : (count + 1) * block = count * block + block := Nat.succ_mul _ _
      rw [List.take_take, List.drop_take, Nat.min_eq_left (by omega), hblocks,
        Nat.add_sub_cancel_left] at hwhole
      rw [List.range_succ, List.map_append, xorAll_append, ih, hblocks, hwhole]
      simp [xorAll, blockXor]

/-- The threads together have every block once. -/
theorem xorAll_strides {file : Bytes} {block n : Nat} (h : ReaderFits file block n) :
    xorAll ((List.range n).map fun i => strideXor file block n i file.length) =
      xorAll (words file) := by
  have hdealt := total_strides (α := UInt32) (· ^^^ ·) 0 (blockXor file block) n file.length
  have hcover : file.length ≤ file.length * n * block := by
    rw [Nat.mul_assoc]
    exact Nat.le_mul_of_pos_right _ (Nat.mul_pos h.threads h.block_pos)
  calc xorAll ((List.range n).map fun i => strideXor file block n i file.length)
      = xorAll ((List.range (file.length * n)).map (blockXor file block)) := hdealt
    _ = xorAll (words (file.take (file.length * n * block))) := xorAll_blocks h.aligned file _
    _ = xorAll (words file) := by rw [List.take_of_length_le hcover]

/-! ## Turns -/

/-- The argument `thread_read` starts with. -/
def firstTurn (block i : Nat) : ThreadState := .reading (toUlong (wrap (i * block))) 0

/-- The loop of `thread_read` after one more block. -/
def nextTurn (block n : Nat) (i : Fin n) (count : Int) : ThreadState :=
  .reading (toUlong ((n * wrap (count + 1) + i) * block)) (wrap (count + 1))

/-- All that a step can do. -/
inductive Reader.Turn {n : Nat} (file : Bytes) (block : Nat) (r : Reader n) : Reader n → Prop
  | create (h : r.i < n) (hloop : r.loop = .create) :
      Turn file block r { r.setThread ⟨r.i, h⟩ (firstTurn block r.i) with i := r.i + 1 }
  | created (h : n ≤ r.i) (hloop : r.loop = .create) :
      Turn file block r { r with loop := .join, i := 0 }
  | join (h : r.i < n) (hloop : r.loop = .join) (hexited : r.thread ⟨r.i, h⟩ = .exited) :
      Turn file block r { r with i := r.i + 1, xor := r.xor ^^^ r.threadXor ⟨r.i, h⟩ }
  | joined (h : n ≤ r.i) (hloop : r.loop = .join) : Turn file block r { r with loop := .done }
  | exit (i : Fin n) (offset count : Int) (hthread : r.thread i = .reading offset count)
      (hdata : pread file block offset = []) : Turn file block r (r.setThread i .exited)
  | read (i : Fin n) (offset count : Int) (hthread : r.thread i = .reading offset count)
      (hdata : pread file block offset ≠ []) :
      Turn file block r { r.setThread i (nextTurn block n i count) with
        threadXor := Function.update r.threadXor i
          (r.threadXor i ^^^ xorChunk (pread file block offset)) }

theorem Reader.step_turn {n : Nat} {file : Bytes} {block : Nat} {r r' : Reader n}
    {a : ReaderAction n} {events : List (PreadCall n)}
    (hstep : r.step file block a = some (r', events)) : Turn file block r r' := by
  cases a with
  | main =>
      obtain ⟨next, hmain, heq⟩ := Option.map_eq_some_iff.mp hstep
      cases heq
      simp only [mainStep] at hmain
      split at hmain
      next hloop =>
        split at hmain
        next h => cases hmain; exact .create h hloop
        next h => cases hmain; exact .created (Nat.le_of_not_lt h) hloop
      next hloop =>
        split at hmain
        next h =>
          split at hmain
          next hexited => cases hmain; exact .join h hloop hexited
          next => cases hmain
        next h => cases hmain; exact .joined (Nat.le_of_not_lt h) hloop
      next => cases hmain
  | thread i =>
      simp only [step, threadStep] at hstep
      split at hstep
      next offset count hthread =>
        split at hstep
        next hdata => cases hstep; exact .exit i offset count hthread hdata
        next hdata => cases hstep; exact .read i offset count hthread hdata
      next => cases hstep

/-! ## The invariant -/

/-- A thread has what its blocks so far give. -/
def ThreadRight (file : Bytes) (block n : Nat) (i : Fin n) (xor : UInt32) : ThreadState → Prop
  | .absent => xor = 0
  | .reading offset count => ∃ k : Nat, count = k ∧ offset = ((k * n + i) * block : Nat) ∧
      xor = strideXor file block n i k ∧ ∀ j < k, (j * n + i) * block < file.length
  | .exited => xor = strideXor file block n i file.length

/-- How many threads have been joined. -/
def Reader.joined {n : Nat} (r : Reader n) : Nat :=
  match r.loop with
  | .create => 0
  | .join => r.i
  | .done => n

structure Reader.Right {n : Nat} (file : Bytes) (block : Nat) (r : Reader n) : Prop where
  index_le : r.i ≤ n
  xor : r.xor = xorAll ((List.range r.joined).map fun i => strideXor file block n i file.length)
  created : ∀ i : Fin n, r.thread i = .absent ↔ r.loop = .create ∧ r.i ≤ i
  threads : ∀ i, ThreadRight file block n i (r.threadXor i) (r.thread i)

section Invariant

variable {file : Bytes} {block n : Nat} (h : ReaderFits file block n)
include h

theorem ReaderFits.firstTurn_right (i : Fin n) :
    ThreadRight file block n i 0 (firstTurn block i) := by
  have hproduct := h.products i i.isLt
  have hoffset : toUlong (wrap ((i : Nat) * block)) = ((0 * n + i) * block : Nat) := by
    rw [Nat.zero_mul, Nat.zero_add, wrap_of_inRange, toUlong]
    · push_cast
      apply Int.emod_eq_of_lt
      · positivity
      · unfold intMax at hproduct
        push_cast at hproduct
        omega
    · unfold InRange
      push_cast at hproduct
      constructor
      · have hnonneg : (0 : Int) ≤ (i : Nat) * block := by positivity
        omega
      · exact hproduct
  exact ⟨0, rfl, hoffset, rfl, by simp⟩

/-- `count` does not overflow while there are blocks. -/
theorem ReaderFits.wrap_count {i k : Nat} (hi : i < n)
    (hlast : (k * n + i) * block < file.length) :
    wrap ((k : Int) + 1) = ((k + 1 : Nat) : Int) := by
  have hfits := h.counts i hi k hlast
  rw [wrap_of_inRange (inRange_of_nonneg (by omega) le_rfl (by exact_mod_cast hfits))]
  push_cast
  rfl

/-- One more block keeps a thread right. -/
theorem ReaderFits.nextTurn_right {i : Fin n} {xor : UInt32} {offset count : Int}
    (hright : ThreadRight file block n i xor (.reading offset count))
    (hdata : pread file block offset ≠ []) :
    ThreadRight file block n i (xor ^^^ xorChunk (pread file block offset))
      (nextTurn block n i count) := by
  obtain ⟨k, rfl, rfl, rfl, hinside⟩ := hright
  have hlast : (k * n + i) * block < file.length := by
    rw [Ne, h.pread_eq_nil_iff] at hdata
    omega
  have hinside' : ∀ j < k + 1, (j * n + i) * block < file.length := by
    intro j hj
    rcases Nat.lt_succ_iff_lt_or_eq.mp hj with hlt | rfl
    · exact hinside j hlt
    · exact hlast
  have hcount := h.wrap_count i.isLt hlast
  have hoffset : toUlong ((n * wrap ((k : Int) + 1) + i) * block) =
      (((k + 1) * n + i) * block : Nat) := by
    have hlt := h.offset_lt i.isLt hinside'
    have hexact : ((n : Int) * ((k + 1 : Nat) : Int) + (i : Nat)) * block =
        (((k + 1) * n + i) * block : Nat) := by
      push_cast
      ring
    rw [hcount, hexact, toUlong]
    exact Int.emod_eq_of_lt (Int.natCast_nonneg _) (by exact_mod_cast hlt)
  refine ⟨k + 1, hcount, hoffset, ?_, hinside'⟩
  rw [strideXor_succ, xorChunk_eq, h.pread_eq, blockXor]

theorem ReaderFits.exited_right {i : Fin n} {xor : UInt32} {offset count : Int}
    (hright : ThreadRight file block n i xor (.reading offset count))
    (hdata : pread file block offset = []) : ThreadRight file block n i xor .exited := by
  obtain ⟨k, rfl, rfl, rfl, hinside⟩ := hright
  rw [h.pread_eq_nil_iff] at hdata
  have hend : file.length ≤ (file.length * n + i) * block := by
    calc file.length ≤ file.length * (n * block) :=
          Nat.le_mul_of_pos_right _ (Nat.mul_pos h.threads h.block_pos)
      _ = file.length * n * block := (Nat.mul_assoc _ _ _).symm
      _ ≤ (file.length * n + i) * block := Nat.mul_le_mul_right _ (Nat.le_add_right _ _)
  rcases Nat.le_total k file.length with hle | hle
  · exact (strideXor_beyond hle hdata).symm
  · exact strideXor_beyond hle hend

variable {r r' : Reader n}

omit h in
/-- A turn of a thread that is running. -/
theorem Reader.Right.setThread (hright : r.Right file block) {i : Fin n} {state : ThreadState}
    {xor : UInt32} (hrunning : r.thread i ≠ .absent) (hstate : state ≠ .absent)
    (hnew : ThreadRight file block n i xor state) :
    Reader.Right file block { r.setThread i state with
      threadXor := Function.update r.threadXor i xor } := by
  refine ⟨hright.index_le, hright.xor, ?_, ?_⟩
  · intro j
    by_cases hji : j = i
    · subst hji
      have hcreated : ¬(r.loop = .create ∧ r.i ≤ j) :=
        fun habsent => hrunning ((hright.created j).mpr habsent)
      simpa [Reader.setThread, hstate] using hcreated
    · simpa [Reader.setThread, hji] using hright.created j
  · intro j
    by_cases hji : j = i
    · subst hji
      simpa [Reader.setThread] using hnew
    · simpa [Reader.setThread, hji] using hright.threads j

theorem ReaderFits.create_right (hright : r.Right file block) (hi : r.i < n)
    (hloop : r.loop = .create) :
    Reader.Right file block
      { r.setThread ⟨r.i, hi⟩ (firstTurn block r.i) with i := r.i + 1 } := by
  have hxor : r.threadXor ⟨r.i, hi⟩ = 0 := by
    have hthread := hright.threads ⟨r.i, hi⟩
    rwa [(hright.created ⟨r.i, hi⟩).mpr ⟨hloop, le_rfl⟩] at hthread
  refine ⟨hi, ?_, ?_, ?_⟩
  · have hzero := hright.xor
    simp only [Reader.joined, hloop] at hzero
    simpa [Reader.joined, Reader.setThread, hloop] using hzero
  · intro j
    by_cases hj : j = ⟨r.i, hi⟩
    · subst hj
      simp [Reader.setThread, firstTurn]
    · have hne : (j : Nat) ≠ r.i := fun heq => hj (Fin.ext heq)
      have hcreated := hright.created j
      simp only [Reader.setThread, Function.update_of_ne hj, hcreated]
      refine and_congr_right fun _ => ?_
      omega
  · intro j
    by_cases hj : j = ⟨r.i, hi⟩
    · subst hj
      simpa [Reader.setThread, hxor] using h.firstTurn_right ⟨r.i, hi⟩
    · simpa [Reader.setThread, hj] using hright.threads j

/-- The invariant is kept by every turn. -/
theorem ReaderFits.turn_right (hright : r.Right file block) (hturn : r.Turn file block r') :
    r'.Right file block := by
  cases hturn with
  | create hi hloop => exact h.create_right hright hi hloop
  | created hi hloop =>
      have hxor := hright.xor
      simp only [Reader.joined, hloop] at hxor
      refine ⟨Nat.zero_le _, hxor, ?_, hright.threads⟩
      intro i
      have hstarted : ¬r.i ≤ i := by
        have := i.isLt
        omega
      simpa [hloop, hstarted] using hright.created i
  | join hi hloop hexited =>
      have hthread := hright.threads ⟨r.i, hi⟩
      rw [hexited] at hthread
      have hxor := hright.xor
      simp only [Reader.joined, hloop] at hxor
      refine ⟨hi, ?_, ?_, hright.threads⟩
      · simp only [Reader.joined, hloop]
        rw [List.range_succ, List.map_append, xorAll_append, ← hxor, hthread]
        simp [xorAll]
      · intro i
        simpa [hloop] using hright.created i
  | joined hi hloop =>
      have hxor := hright.xor
      obtain heq : r.i = n := le_antisymm hright.index_le hi
      simp only [Reader.joined, hloop, heq] at hxor
      refine ⟨hright.index_le, hxor, ?_, hright.threads⟩
      intro i
      simpa [hloop] using hright.created i
  | exit i offset count hthread hdata =>
      have hold := hright.threads i
      rw [hthread] at hold
      have hset := hright.setThread (i := i) (by simp [hthread]) (by simp)
        (h.exited_right hold hdata)
      rw [Function.update_eq_self] at hset
      exact hset
  | read i offset count hthread hdata =>
      have hold := hright.threads i
      rw [hthread] at hold
      exact hright.setThread (by simp [hthread]) (by simp [nextTurn]) (h.nextTurn_right hold hdata)

omit h in
theorem Reader.start_right : (Reader.start : Reader n).Right file block where
  index_le := Nat.zero_le _
  xor := rfl
  created i := by simp [Reader.start]
  threads i := rfl

theorem ReaderFits.right_of_reach {history : List (PreadCall n)}
    (hreach : Reach (Reader.step file block) anyStep Reader.start history r) :
    r.Right file block := by
  induction hreach with
  | start => exact Reader.start_right
  | step _ _ hstep ih => exact h.turn_right ih (Reader.step_turn hstep)

end Invariant

/-! ## Completion -/

/-- The turns a thread has left, at most. -/
def ThreadState.left (length : Nat) : ThreadState → Nat
  | .absent => length + 2
  | .reading _ count => length - count.toNat + 1
  | .exited => 0

/-- The turns the loops of `disk_read` have left. -/
def Reader.mainLeft {n : Nat} (r : Reader n) : Nat :=
  match r.loop with
  | .create => (n - r.i) + (n + 2)
  | .join => (n - r.i) + 1
  | .done => 0

def Reader.left {n : Nat} (file : Bytes) (r : Reader n) : Nat :=
  r.mainLeft + ∑ i, (r.thread i).left file.length

section Completion

variable {file : Bytes} {block n : Nat} {r r' : Reader n}

theorem Reader.sum_left_setThread_lt {i : Fin n} {state : ThreadState}
    (hlt : state.left file.length < (r.thread i).left file.length) :
    ∑ j, ((r.setThread i state).thread j).left file.length <
      ∑ j, (r.thread j).left file.length := by
  apply Finset.sum_lt_sum
  · intro j _
    by_cases hji : j = i
    · subst hji
      simpa [Reader.setThread] using hlt.le
    · simp [Reader.setThread, hji]
  · exact ⟨i, Finset.mem_univ i, by simpa [Reader.setThread] using hlt⟩

variable (h : ReaderFits file block n)
include h

/-- A thread reads no more blocks than the file has bytes. -/
theorem ReaderFits.count_le {i k : Nat} (hinside : ∀ j < k, (j * n + i) * block < file.length) :
    k ≤ file.length := by
  cases k with
  | zero => exact Nat.zero_le _
  | succ k =>
      have hlast := hinside k (Nat.lt_succ_self k)
      have hle : k ≤ (k * n + i) * block := by
        calc k ≤ k * n := Nat.le_mul_of_pos_right _ h.threads
          _ ≤ k * n + i := Nat.le_add_right _ _
          _ ≤ (k * n + i) * block := Nat.le_mul_of_pos_right _ h.block_pos
      omega

theorem ReaderFits.nextTurn_left_lt {i : Fin n} {xor : UInt32} {offset count : Int}
    (hright : ThreadRight file block n i xor (.reading offset count))
    (hdata : pread file block offset ≠ []) :
    (nextTurn block n i count).left file.length <
      (ThreadState.reading offset count).left file.length := by
  obtain ⟨k', hcount', -, -, hinside'⟩ := h.nextTurn_right hright hdata
  obtain ⟨k, rfl, rfl, -, -⟩ := hright
  have hlast : (k * n + i) * block < file.length := by
    rw [Ne, h.pread_eq_nil_iff] at hdata
    omega
  have hcount := h.wrap_count i.isLt hlast
  have hle := h.count_le hinside'
  simp only [nextTurn, ThreadState.left]
  omega

/-- Every turn leaves fewer turns. -/
theorem ReaderFits.turn_left_lt (hright : r.Right file block) (hturn : r.Turn file block r') :
    r'.left file < r.left file := by
  cases hturn with
  | create hi hloop =>
      have habsent := (hright.created ⟨r.i, hi⟩).mpr ⟨hloop, le_rfl⟩
      have hthreads :
          ∑ j, ((r.setThread ⟨r.i, hi⟩ (firstTurn block r.i)).thread j).left file.length <
          ∑ j, (r.thread j).left file.length := by
        apply Reader.sum_left_setThread_lt
        rw [habsent]
        simp [ThreadState.left, firstTurn]
      simp only [Reader.left, Reader.mainLeft, Reader.setThread, hloop] at hthreads ⊢
      omega
  | created hi hloop =>
      simp only [Reader.left, Reader.mainLeft, hloop]
      omega
  | join hi hloop hexited =>
      simp only [Reader.left, Reader.mainLeft, hloop]
      omega
  | joined hi hloop =>
      simp only [Reader.left, Reader.mainLeft, hloop]
      omega
  | exit i offset count hthread hdata =>
      refine Nat.add_lt_add_left (Reader.sum_left_setThread_lt ?_) _
      rw [hthread]
      simp [ThreadState.left]
  | read i offset count hthread hdata =>
      refine Nat.add_lt_add_left (Reader.sum_left_setThread_lt ?_) _
      have hold := hright.threads i
      rw [hthread] at hold ⊢
      exact h.nextTurn_left_lt hold hdata

omit h in
/-- Until the end some thread or the main loop can go on. -/
theorem Reader.Right.unblocked (hright : r.Right file block) (hdone : r.loop ≠ .done) :
    ∃ a, (r.step file block a).isSome := by
  cases hloop : r.loop with
  | create =>
      refine ⟨.main, ?_⟩
      simp only [Reader.step, Option.isSome_map, Reader.mainStep, hloop]
      split <;> rfl
  | join =>
      by_cases hi : r.i < n
      · cases hthread : r.thread ⟨r.i, hi⟩ with
        | absent =>
            have habsent := (hright.created ⟨r.i, hi⟩).mp hthread
            rw [hloop] at habsent
            cases habsent.1
        | reading offset count =>
            refine ⟨.thread ⟨r.i, hi⟩, ?_⟩
            simp only [Reader.step, Reader.threadStep, hthread]
            split <;> rfl
        | exited =>
            refine ⟨.main, ?_⟩
            simp [Reader.step, Reader.mainStep, hloop, hi, hthread]
      · refine ⟨.main, ?_⟩
        simp [Reader.step, Reader.mainStep, hloop, hi]
  | done => exact absurd hloop hdone

/-- The threads compute the exclusive or of the words of the file. -/
theorem ReaderFits.computes : Computes file block n (xorAll (words file)) where
  finished history r hreach hdone := by
    have hxor := (h.right_of_reach hreach).xor
    simp only [Reader.joined, hdone] at hxor
    rw [hxor, xorAll_strides h]
  unblocked history r hreach hdone := (h.right_of_reach hreach).unblocked hdone
  bounded := by
    refine ⟨(Reader.start : Reader n).left file, fun actions hrun => ?_⟩
    obtain ⟨⟨last, events⟩, hlast⟩ := Option.isSome_iff_exists.mp hrun
    refine Nat.le_of_add_right_le (length_add_le_of_run (Reader.Right file block)
      (Reader.left file) ?_ Reader.start_right hlast)
    intro s a t events hright hstep
    have hturn := Reader.step_turn hstep
    exact ⟨h.turn_right hright hturn, h.turn_left_lt hright hturn⟩

end Completion

/-! ## The readers agree -/

/-- The size of the blocks that are read: whole words only. -/
def wordBlock (blockSize : Nat) : Nat := 4 * (blockSize / 4)

/-- Whatever the order of the threads, `run_multithreaded.c` computes what `fast.c`
computes, the exclusive or of the words of the file; `run_blocksize.c` computes
that of the first blocks. -/
theorem readers_agree (file : Bytes) (blockSize n : Nat) (hsize : 4 ≤ blockSize)
    (hint : (blockSize : Int) ≤ intMax) (hthreads : 1 ≤ n)
    (hproducts : ∀ i < n, ((i * wordBlock blockSize : Nat) : Int) ≤ intMax)
    (hcounts : ∀ i < n, ∀ k, (k * n + i) * wordBlock blockSize < file.length →
      ((k + 1 : Nat) : Int) ≤ intMax) :
    Computes file (wordBlock blockSize) n (fastDiskRead (fullReads 4096 file)) ∧
      fastDiskRead (fullReads 4096 file) = xorAll (words file) ∧
      ∀ blockCount : Int,
        blocksizeDiskRead blockCount (fullReads (wordBlock blockSize) file) =
            xorAll (words (file.take (blockCount.toNat * wordBlock blockSize))) ∧
          ((file.length : Int) ≤ blockCount * wordBlock blockSize →
            blocksizeDiskRead blockCount (fullReads (wordBlock blockSize) file) =
              xorAll (words file)) := by
  have hpos : 0 < wordBlock blockSize := by
    unfold wordBlock
    omega
  have halign : 4 ∣ wordBlock blockSize := Nat.dvd_mul_right 4 _
  have hfits : ReaderFits file (wordBlock blockSize) n := by
    refine ⟨hthreads, hpos, halign, ?_, hproducts, hcounts⟩
    unfold wordBlock
    omega
  refine ⟨?_, fastDiskRead_fullReads file, ?_⟩
  · rw [fastDiskRead_fullReads]
    exact hfits.computes
  · intro blockCount
    have hblocks := blocksizeDiskRead_fullReads hpos halign blockCount file
    refine ⟨hblocks, fun hcover => ?_⟩
    have hlength : file.length ≤ blockCount.toNat * wordBlock blockSize := by
      rcases Int.lt_or_le blockCount 0 with hneg | hnonneg
      · have hnone : blockCount * wordBlock blockSize ≤ 0 :=
          Int.mul_nonpos_of_nonpos_of_nonneg hneg.le (Int.natCast_nonneg _)
        omega
      · have hcast : ((blockCount.toNat * wordBlock blockSize : Nat) : Int) =
            blockCount * wordBlock blockSize := by
          rw [Int.natCast_mul, Int.toNat_of_nonneg hnonneg]
        omega
    rw [hblocks, List.take_of_length_le hlength]

/-- Nine bytes, read by three threads in blocks of seven. -/
theorem readers_agree_threeThreads :
    Computes [1, 2, 3, 4, 5, 6, 7, 8, 9] (wordBlock 7) 3
        (fastDiskRead (fullReads 4096 [1, 2, 3, 4, 5, 6, 7, 8, 9])) ∧
      fastDiskRead (fullReads 4096 [1, 2, 3, 4, 5, 6, 7, 8, 9]) =
        xorAll (words [1, 2, 3, 4, 5, 6, 7, 8, 9]) := by
  have hcounts : ∀ i < 3, ∀ k,
      (k * 3 + i) * wordBlock 7 < ([1, 2, 3, 4, 5, 6, 7, 8, 9] : Bytes).length →
      ((k + 1 : Nat) : Int) ≤ intMax := by
    intro i _ k hk
    simp only [wordBlock, List.length_cons, List.length_nil] at hk
    unfold intMax
    omega
  obtain ⟨hcomputes, hfast, -⟩ := readers_agree [1, 2, 3, 4, 5, 6, 7, 8, 9] 7 3 (by decide)
    (by decide) (by decide) (by decide) hcounts
  exact ⟨hcomputes, hfast⟩

end OsCourse.Disk
