import OsCourse.Disk.Words
import OsCourse.Lib.MachineInt
import Mathlib.Algebra.Order.Ring.Int
import Mathlib.Tactic.Ring

/-! # The write mode and the `lseek` benchmark

`disk_write` is the same in `run.c`, `run_blocksize.c`, `run_multithreaded.c` and
`part_4_lseek_run.c`: it opens the file with `O_WRONLY|O_CREAT`, so that what the
file held stays until it is written over. `disk_read` of `part_4_lseek_run.c` moves
the file offset by blocks up to a bound that is a product of two `int` values.
-/

namespace OsCourse.Disk

open MachineInt

/-! ## Writing -/

/-- The letter `t`. -/
def writeLetter : UInt8 := 116

/-- A call of `disk_write`, with what the stack holds where its buffer is. -/
structure WriteCall where
  blockSize : Nat
  blockCount : Nat
  buf : Vector UInt8 blockSize

/-- The documented size of the file. -/
def WriteCall.size (call : WriteCall) : Nat := call.blockSize * call.blockCount

/-- A file open for writing. -/
structure OpenFile where
  content : Bytes
  offset : Nat

/-- `open` with `O_WRONLY|O_CREAT`: an existing file keeps its content. -/
def openCreate (file : Option Bytes) : OpenFile where
  content := file.getD []
  offset := 0

/-- A `write` that succeeds in full; a gap before the offset is filled with zeros. -/
def OpenFile.write (fd : OpenFile) (data : Bytes) : OpenFile where
  content := fd.content.take fd.offset ++
    List.replicate (fd.offset - fd.content.length) 0 ++ data ++
    fd.content.drop (fd.offset + data.length)
  offset := fd.offset + data.length

/-- The inner loop of `disk_write`. -/
def fillBuf (blockSize : Nat) (buf : Bytes) : Bytes :=
  (List.range blockSize).foldl (fun buf j => buf.set j writeLetter) buf

/-- The outer loop, with the number of rounds left. -/
def writeLoop (blockSize : Nat) : Nat → Bytes → OpenFile → OpenFile
  | 0, _, fd => fd
  | rounds + 1, buf, fd =>
      let buf := fillBuf blockSize buf
      writeLoop blockSize rounds buf (fd.write (buf.take blockSize))

/-- The file after `disk_write`. -/
def diskWrite (file : Option Bytes) (call : WriteCall) : Option Bytes :=
  some (writeLoop call.blockSize call.blockCount call.buf.toList (openCreate file)).content

/-- The file after a sequence of calls. -/
def diskWrites (file : Option Bytes) (calls : List WriteCall) : Option Bytes :=
  calls.foldl diskWrite file

theorem foldl_set_range (n : Nat) (buf : Bytes) (h : n ≤ buf.length) :
    (List.range n).foldl (fun buf j => buf.set j writeLetter) buf =
      List.replicate n writeLetter ++ buf.drop n := by
  induction n with
  | zero => rfl
  | succ n ih =>
      rw [List.range_succ, List.foldl_append, ih (by omega), List.foldl_cons, List.foldl_nil,
        List.set_append_right _ _ (by rw [List.length_replicate]), List.length_replicate,
        Nat.sub_self, List.drop_eq_getElem_cons h, List.set_cons_zero, List.replicate_succ',
        List.append_assoc, List.singleton_append]

theorem fillBuf_eq {blockSize : Nat} {buf : Bytes} (h : buf.length = blockSize) :
    fillBuf blockSize buf = List.replicate blockSize writeLetter := by
  rw [fillBuf, foldl_set_range _ _ (Nat.le_of_eq h.symm), List.drop_of_length_le (Nat.le_of_eq h),
    List.append_nil]

/-- A write at the end of the letters written so far. -/
theorem write_letters (n m : Nat) (content : Bytes) :
    OpenFile.write ⟨List.replicate n writeLetter ++ content.drop n, n⟩
        (List.replicate m writeLetter) =
      ⟨List.replicate (n + m) writeLetter ++ content.drop (n + m), n + m⟩ := by
  have hlen : (List.replicate n writeLetter).length = n := List.length_replicate
  have hgap : n - (List.replicate n writeLetter ++ content.drop n).length = 0 := by
    rw [List.length_append, hlen]
    omega
  unfold OpenFile.write
  simp only [hgap, List.length_replicate, List.replicate_zero, List.append_nil]
  rw [List.take_append_of_le_length (Nat.le_of_eq hlen.symm),
    List.take_of_length_le (Nat.le_of_eq hlen), List.drop_append, hlen,
    List.drop_of_length_le (by omega), List.nil_append, List.drop_drop,
    List.replicate_append_replicate]
  congr 3
  omega

theorem writeLoop_content {blockSize : Nat} (content : Bytes) (rounds written : Nat) {buf : Bytes}
    (h : buf.length = blockSize) :
    (writeLoop blockSize rounds buf
        ⟨List.replicate written writeLetter ++ content.drop written, written⟩).content =
      List.replicate (written + blockSize * rounds) writeLetter ++
        content.drop (written + blockSize * rounds) := by
  induction rounds generalizing written buf with
  | zero => rfl
  | succ rounds ih =>
      have htake : (List.replicate blockSize writeLetter).take blockSize =
          List.replicate blockSize writeLetter := by
        rw [List.take_replicate, Nat.min_self]
      have hnext : written + blockSize + blockSize * rounds =
          written + blockSize * (rounds + 1) := by
        rw [Nat.mul_succ]
        omega
      rw [writeLoop, fillBuf_eq h, htake, write_letters, ih _ List.length_replicate, hnext]

/-- The letters replace the front of what the file held. -/
theorem diskWrite_eq (file : Option Bytes) (call : WriteCall) :
    diskWrite file call =
      some (List.replicate call.size writeLetter ++ (file.getD []).drop call.size) := by
  have hloop := writeLoop_content (file.getD []) call.blockCount 0 (call.buf.length_toList)
  rw [Nat.zero_add, List.replicate_zero, List.nil_append, List.drop_zero] at hloop
  rw [diskWrite, openCreate, hloop, WriteCall.size]

theorem length_diskWrite (file : Option Bytes) (call : WriteCall) :
    ((diskWrite file call).getD []).length = max call.size (file.getD []).length := by
  rw [diskWrite_eq, Option.getD_some, List.length_append, List.length_replicate, List.length_drop]
  omega

/-- A file is as long as the longest of what it was and what was written. -/
theorem length_diskWrites_le_iff (file : Option Bytes) (calls : List WriteCall) (n : Nat) :
    ((diskWrites file calls).getD []).length ≤ n ↔
      (file.getD []).length ≤ n ∧ ∀ call ∈ calls, call.size ≤ n := by
  induction calls generalizing file with
  | nil =>
      constructor
      · intro h
        exact ⟨h, fun call hcall => absurd hcall List.not_mem_nil⟩
      · intro h
        exact h.1
  | cons call calls ih =>
      rw [diskWrites, List.foldl_cons, ← diskWrites, ih, length_diskWrite, List.forall_mem_cons,
        max_le_iff]
      constructor
      · rintro ⟨⟨hcall, hfile⟩, hcalls⟩
        exact ⟨hfile, hcall, hcalls⟩
      · rintro ⟨hfile, hcall, hcalls⟩
        exact ⟨⟨hcall, hfile⟩, hcalls⟩

theorem diskWrite_exact_iff (file : Option Bytes) (call : WriteCall) :
    diskWrite file call = some (List.replicate call.size writeLetter) ↔
      (file.getD []).length ≤ call.size := by
  rw [diskWrite_eq, Option.some_inj, List.append_right_eq_self, List.drop_eq_nil_iff]

/-- After a sequence of calls the file is what the last of them documents, exactly
when neither the file before nor an earlier call was longer. -/
theorem diskWrites_exact_iff (file : Option Bytes) (calls : List WriteCall) (last : WriteCall) :
    diskWrites file (calls ++ [last]) = some (List.replicate last.size writeLetter) ↔
      (∀ content ∈ file, content.length ≤ last.size) ∧ ∀ call ∈ calls, call.size ≤ last.size := by
  have hlast : diskWrites file (calls ++ [last]) = diskWrite (diskWrites file calls) last := by
    rw [diskWrites, List.foldl_append, List.foldl_cons, List.foldl_nil, diskWrites]
  rw [hlast, diskWrite_exact_iff, length_diskWrites_le_iff]
  refine and_congr_left fun _ => ?_
  cases file with
  | none => simp
  | some content => simp

/-- The end of a longer file stays, whether it was there or was written by an
earlier call. -/
theorem longer_file_stays :
    diskWrite (some [97, 98, 99]) ⟨2, 1, #v[0, 0]⟩ = some [writeLetter, writeLetter, 99] ∧
      diskWrites none [⟨1, 3, #v[0]⟩, ⟨2, 1, #v[0, 0]⟩] ≠ some (List.replicate 2 writeLetter) := by
  decide

/-! ## Seeking -/

/-- The state of the loop of `disk_read`: the file offset, how many `lseek` calls
were made, and whether every `int` operation so far was exact. -/
structure Seeking where
  sum : Int
  offset : Int
  calls : Nat
  noOverflow : Bool
  deriving DecidableEq

/-- The largest file offset. -/
def offMax : Int := 2 ^ 63 - 1

/-- `lseek` with `SEEK_CUR`: an offset that cannot be represented is refused. -/
def lseek (offset blockSize : Int) : Int :=
  if offset + blockSize ≤ offMax then offset + blockSize else offset

/-- The loop of `disk_read`, for as many tests of its condition as there is fuel. -/
def seekLoop (blockSize blockCount : Int) : Nat → Seeking → Option Seeking
  | 0, _ => none
  | fuel + 1, s =>
      let tested := { s with
        noOverflow := s.noOverflow && decide (InRange (blockCount * blockSize)) }
      if tested.sum < wrap (blockCount * blockSize) then
        seekLoop blockSize blockCount fuel
          { sum := wrap (tested.sum + blockSize)
            offset := lseek tested.offset blockSize
            calls := tested.calls + 1
            noOverflow := tested.noOverflow && decide (InRange (tested.sum + blockSize)) }
      else some tested

/-- The file has just been opened. -/
def seekStart : Seeking := ⟨0, 0, 0, true⟩

/-- The loop ends after `block_count` calls at the end of the blocks, without
overflow. -/
def SeeksExactly (blockSize blockCount : Int) : Prop :=
  ∃ fuel, seekLoop blockSize blockCount fuel seekStart =
    some ⟨blockSize * blockCount, blockSize * blockCount, blockCount.toNat, true⟩

theorem inRange_of_seekLoop {blockSize blockCount : Int} {fuel : Nat} {s final : Seeking}
    (h : seekLoop blockSize blockCount fuel s = some final) (hfinal : final.noOverflow = true) :
    InRange (blockCount * blockSize) := by
  induction fuel generalizing s with
  | zero => exact absurd h (by simp [seekLoop])
  | succ fuel ih =>
      rw [seekLoop] at h
      split at h
      next => exact ih h
      next =>
        obtain rfl := Option.some.inj h
        exact of_decide_eq_true (Bool.and_eq_true_iff.mp hfinal).2

/-- From the start of block `done` the loop makes the calls that are left. -/
theorem seekLoop_from {blockSize blockCount : Int} (hsize : 0 < blockSize)
    (hfits : blockSize * blockCount ≤ intMax) (left done : Nat)
    (h : (done + left : Nat) = blockCount) :
    seekLoop blockSize blockCount (left + 1) ⟨blockSize * done, blockSize * done, done, true⟩ =
      some ⟨blockSize * blockCount, blockSize * blockCount, blockCount.toNat, true⟩ := by
  have hrange : InRange (blockCount * blockSize) :=
    inRange_of_nonneg (Int.mul_nonneg (by omega) (by omega)) (Int.le_of_eq (Int.mul_comm _ _)) hfits
  induction left generalizing done with
  | zero =>
      have hdone : done = blockCount.toNat := by omega
      have hsum : blockSize * (blockCount.toNat : Int) = blockSize * blockCount := by
        rw [Int.toNat_of_nonneg (by omega)]
      have hstop : ¬ blockSize * blockCount < wrap (blockCount * blockSize) := by
        rw [wrap_of_inRange hrange, Int.mul_comm]
        exact Int.lt_irrefl _
      rw [hdone, hsum, seekLoop]
      simp only [hstop, if_false, hrange, decide_true, Bool.and_true]
  | succ left ih =>
      have hlt : blockSize * done < blockCount * blockSize := by
        rw [Int.mul_comm blockCount]
        exact Int.mul_lt_mul_of_pos_left (by omega) hsize
      have hsucc : blockSize * done + blockSize = blockSize * (done + 1 : Nat) := by
        push_cast
        ring
      have hle : blockSize * (done + 1 : Nat) ≤ blockSize * blockCount :=
        Int.mul_le_mul_of_nonneg_left (by omega) (by omega)
      have hsum : InRange (blockSize * (done + 1 : Nat)) :=
        inRange_of_nonneg (Int.mul_nonneg (by omega) (by omega)) hle hfits
      have hoff : blockSize * (done + 1 : Nat) ≤ offMax := by
        unfold offMax
        unfold intMax at hfits
        omega
      rw [seekLoop]
      simp only [wrap_of_inRange hrange, hrange, decide_true, Bool.and_true, hlt, if_true, hsucc,
        wrap_of_inRange hsum, hsum, lseek, hoff]
      exact ih (done + 1) (by omega)

/-- The loop does the work it is asked for exactly when the product of its
arguments is an `int`. -/
theorem seeksExactly_iff {blockSize blockCount : Int} (hsize : 0 < blockSize)
    (hcount : 0 < blockCount) :
    SeeksExactly blockSize blockCount ↔ blockSize * blockCount ≤ intMax := by
  constructor
  · rintro ⟨fuel, hfuel⟩
    have hrange := inRange_of_seekLoop hfuel rfl
    rw [Int.mul_comm]
    exact hrange.2
  · intro hfits
    have hloop := seekLoop_from hsize hfits blockCount.toNat 0 (by omega)
    exact ⟨blockCount.toNat + 1, by simpa [seekStart] using hloop⟩

/-- The largest of the benchmark's test cases. -/
theorem seeksExactly_billion : SeeksExactly 1 1000000000 :=
  (seeksExactly_iff (by decide) (by decide)).mpr (by decide)

/-- With 65536 blocks of 65536 bytes the product wraps to zero and no call is made. -/
theorem seek_product_wraps :
    seekLoop 65536 65536 1 seekStart = some ⟨0, 0, 0, false⟩ ∧ ¬ SeeksExactly 65536 65536 := by
  refine ⟨by decide, ?_⟩
  rintro ⟨fuel, hfuel⟩
  have hrange := inRange_of_seekLoop hfuel rfl
  exact absurd hrange (by decide)

end OsCourse.Disk
