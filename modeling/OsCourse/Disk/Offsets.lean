import OsCourse.Disk.Multithreaded

/-! # The offsets of the threads

The first offset of a thread is a product of `int`s, the later ones are computed
in `unsigned long` from an `int` count. Every call is where it should be as long as
the product and the count fit.
-/

namespace OsCourse.Disk

open MachineInt Transition

/-- The offset of call `k` of thread `i`, computed as an integer. -/
def exactOffset (block n i k : Nat) : Nat := (k * n + i) * block

/-- The offsets of the calls of one thread. -/
def callsOf {n : Nat} (i : Fin n) (history : List (PreadCall n)) : List Int :=
  (history.filter (·.thread = i)).map PreadCall.offset

/-- The first `k` exact offsets. -/
def exactCalls (block n i k : Nat) : List Int :=
  (List.range k).map fun j => (exactOffset block n i j : Int)

/-- In every run each thread has called `pread` at its exact offsets one after the
other, up to the first that is not inside the file; there it exits. -/
def OffsetsExact (file : Bytes) (block n : Nat) : Prop :=
  ∀ history (r : Reader n), Reach (Reader.step file block) anyStep Reader.start history r →
    ∀ i, ∃ k, callsOf i history = exactCalls block n i k ∧
      (∀ j, j + 1 < k → exactOffset block n i j < file.length) ∧
      (r.thread i = .exited → ∃ last, k = last + 1 ∧ file.length ≤ exactOffset block n i last)

theorem exactCalls_succ (block n i k : Nat) :
    exactCalls block n i (k + 1) = exactCalls block n i k ++ [(exactOffset block n i k : Int)] := by
  rw [exactCalls, List.range_succ, List.map_append, exactCalls]
  rfl

theorem callsOf_append {n : Nat} (i : Fin n) (history events : List (PreadCall n)) :
    callsOf i (history ++ events) = callsOf i history ++ callsOf i events := by
  rw [callsOf, List.filter_append, List.map_append, callsOf, callsOf]

theorem callsOf_self {n : Nat} (i : Fin n) (offset : Int) : callsOf i [⟨i, offset⟩] = [offset] := by
  simp [callsOf]

theorem callsOf_of_ne {n : Nat} {i j : Fin n} (h : j ≠ i) (offset : Int) :
    callsOf i [⟨j, offset⟩] = [] := by
  simp [callsOf, h]

/-! ## Calls and states -/

/-- The calls a thread has made, by what it does now. -/
def CallsRight (file : Bytes) (block n i : Nat) (calls : List Int) : ThreadState → Prop
  | .absent => calls = []
  | .reading _ count => calls = exactCalls block n i count.toNat
  | .exited => ∃ last, calls = exactCalls block n i (last + 1) ∧
      (∀ j < last, exactOffset block n i j < file.length) ∧
      file.length ≤ exactOffset block n i last

section Calls

variable {file : Bytes} {block n : Nat} {r r' : Reader n} {history events : List (PreadCall n)}

/-- The loops of `disk_read` create threads and call nothing. -/
theorem Reader.mainStep_thread (hstep : r.mainStep block = some r') (i : Fin n) :
    r'.thread i = r.thread i ∨
      r.loop = .create ∧ r.i = i ∧ r'.thread i = firstTurn block i := by
  simp only [mainStep] at hstep
  split at hstep
  next hloop =>
    split at hstep
    next h =>
      cases hstep
      by_cases hi : i = ⟨r.i, h⟩
      · subst hi
        exact Or.inr ⟨hloop, rfl, by simp [setThread, firstTurn]⟩
      · exact Or.inl (by simp [setThread, hi])
    next h =>
      cases hstep
      exact Or.inl rfl
  next hloop =>
    split at hstep
    next h =>
      split at hstep
      next => cases hstep; exact Or.inl rfl
      next => cases hstep
    next h => cases hstep; exact Or.inl rfl
  next => cases hstep

variable (file block) in
/-- A turn of a thread makes one call. -/
theorem Reader.step_thread {i : Fin n} {offset count : Int}
    (h : r.thread i = .reading offset count) :
    ∃ r', r.step file block (.thread i) = some (r', [⟨i, offset⟩]) ∧
      r'.thread = Function.update r.thread i
        (if pread file block offset = [] then .exited else nextTurn block n i count) := by
  simp only [step, threadStep, h]
  split
  next hdata => exact ⟨_, rfl, rfl⟩
  next hdata => exact ⟨_, rfl, rfl⟩

theorem Reader.reading_of_step {i : Fin n}
    (hstep : r.step file block (.thread i) = some (r', events)) :
    ∃ offset count, r.thread i = .reading offset count := by
  simp only [step, threadStep] at hstep
  split at hstep
  next offset count hthread => exact ⟨offset, count, hthread⟩
  next => cases hstep

variable (h : ReaderFits file block n)
include h

/-- The call a running thread makes is one more exact call. -/
theorem ReaderFits.call_right {i : Fin n} {xor : UInt32} {offset count : Int} {calls : List Int}
    (hright : ThreadRight file block n i xor (.reading offset count))
    (hcalls : CallsRight file block n i calls (.reading offset count)) :
    CallsRight file block n i (calls ++ [offset])
      (if pread file block offset = [] then .exited else nextTurn block n i count) := by
  obtain ⟨k, rfl, hoffset, -, hinside⟩ := hright
  have hold : calls = exactCalls block n i k := hcalls
  have hmore : calls ++ [offset] = exactCalls block n i (k + 1) := by
    rw [exactCalls_succ, hold, hoffset, exactOffset]
  have hempty := h.pread_eq_nil_iff (k * n + i)
  rw [← hoffset] at hempty
  rw [hmore]
  by_cases hdata : pread file block offset = []
  · rw [if_pos hdata]
    exact ⟨k, rfl, hinside, hempty.mp hdata⟩
  · have hlast : (k * n + i) * block < file.length := by
      rw [hempty] at hdata
      omega
    rw [if_neg hdata, nextTurn, CallsRight, h.wrap_count i.isLt hlast, Int.toNat_natCast]

theorem ReaderFits.step_calls {a : ReaderAction n} (hright : r.Right file block)
    (hcalls : ∀ i : Fin n, CallsRight file block n i (callsOf i history) (r.thread i))
    (hstep : r.step file block a = some (r', events)) (i : Fin n) :
    CallsRight file block n i (callsOf i (history ++ events)) (r'.thread i) := by
  cases a with
  | main =>
      obtain ⟨next, hmain, heq⟩ := Option.map_eq_some_iff.mp hstep
      cases heq
      rw [List.append_nil]
      rcases Reader.mainStep_thread hmain i with hsame | ⟨hloop, hindex, hfirst⟩
      · rw [hsame]
        exact hcalls i
      · have hnone := hcalls i
        rw [(hright.created i).mpr ⟨hloop, hindex.le⟩] at hnone
        rw [hfirst]
        exact hnone
  | thread j =>
      obtain ⟨offset, count, hthread⟩ := Reader.reading_of_step hstep
      obtain ⟨next, hnext, hupdate⟩ := Reader.step_thread file block hthread
      obtain ⟨rfl, rfl⟩ := Prod.mk.inj (Option.some.inj (hnext.symm.trans hstep))
      rw [callsOf_append, hupdate]
      by_cases hji : j = i
      · subst hji
        have hold := hcalls j
        have hthreads := hright.threads j
        rw [hthread] at hold hthreads
        rw [callsOf_self, Function.update_self]
        exact h.call_right hthreads hold
      · rw [callsOf_of_ne hji, List.append_nil, Function.update_of_ne (Ne.symm hji)]
        exact hcalls i

theorem ReaderFits.calls_of_reach
    (hreach : Reach (Reader.step file block) anyStep Reader.start history r) (i : Fin n) :
    CallsRight file block n i (callsOf i history) (r.thread i) := by
  induction hreach generalizing i with
  | start => rfl
  | step hprior _ hstep ih => exact h.step_calls (h.right_of_reach hprior) ih hstep i

theorem ReaderFits.offsetsExact : OffsetsExact file block n := by
  intro history r hreach i
  have hcalls := h.calls_of_reach hreach i
  have hright := (h.right_of_reach hreach).threads i
  cases hthread : r.thread i with
  | absent =>
      rw [hthread] at hcalls
      exact ⟨0, hcalls, by simp, by simp⟩
  | reading offset count =>
      rw [hthread] at hcalls hright
      obtain ⟨k, rfl, -, -, hinside⟩ := hright
      exact ⟨k, hcalls, fun j hj => hinside j (by omega), by simp⟩
  | exited =>
      rw [hthread] at hcalls
      obtain ⟨last, hlast, hinside, hend⟩ := hcalls
      exact ⟨last + 1, hlast, fun j hj => hinside j (by omega), fun _ => ⟨last, rfl, hend⟩⟩

end Calls

/-! ## Runs of one thread -/

/-- The offset at which the code makes call `k` of thread `i`. -/
def codeOffset (block n i : Nat) : Nat → Int
  | 0 => toUlong (wrap (i * block))
  | k + 1 => toUlong ((n * wrap (k + 1) + i) * block)

theorem wrap_wrap_add_one (x : Int) : wrap (wrap x + 1) = wrap (x + 1) := by
  unfold wrap
  exact Int.bmod_add_bmod

section Runs

variable (file : Bytes) (block : Nat) {n : Nat}

/-- All threads can be created before any of them runs. -/
theorem reach_created (m : Nat) (h : m ≤ n) :
    ∃ r : Reader n, Reach (Reader.step file block) anyStep Reader.start [] r ∧
      r.loop = .create ∧ r.i = m ∧ ∀ i : Fin n, i < m → r.thread i = firstTurn block i := by
  induction m with
  | zero => exact ⟨Reader.start, .start, rfl, rfl, fun i hi => absurd hi (Nat.not_lt_zero _)⟩
  | succ m ih =>
      obtain ⟨r, hreach, hloop, rfl, hthreads⟩ := ih (by omega)
      have hstep : r.step file block .main =
          some ({ r.setThread ⟨r.i, h⟩ (firstTurn block r.i) with i := r.i + 1 }, []) := by
        simp only [Reader.step, Reader.mainStep, hloop, dif_pos (show r.i < n from h),
          Option.map_some, firstTurn]
      refine ⟨_, .step hreach trivial hstep, hloop, rfl, ?_⟩
      intro i hi
      by_cases heq : i = ⟨r.i, h⟩
      · subst heq
        simp [Reader.setThread]
      · have hne : (i : Nat) ≠ r.i := fun hval => heq (Fin.ext hval)
        simp only [Reader.setThread, Function.update_of_ne heq]
        exact hthreads i (by omega)

/-- A thread that finds data in its first `k` calls makes them. -/
theorem reach_reading (i : Fin n) (k : Nat)
    (h : ∀ j < k, pread file block (codeOffset block n i j) ≠ []) :
    ∃ history, ∃ r : Reader n, Reach (Reader.step file block) anyStep Reader.start history r ∧
      r.thread i = .reading (codeOffset block n i k) (wrap k) ∧
      callsOf i history = (List.range k).map (codeOffset block n i) := by
  induction k with
  | zero =>
      obtain ⟨r, hreach, -, -, hthreads⟩ := reach_created file block n le_rfl
      exact ⟨[], r, hreach, hthreads i i.isLt, rfl⟩
  | succ k ih =>
      obtain ⟨history, r, hreach, hthread, hcalls⟩ := ih fun j hj => h j (by omega)
      obtain ⟨next, hnext, hupdate⟩ := Reader.step_thread file block hthread
      refine ⟨_, next, .step hreach trivial hnext, ?_, ?_⟩
      · rw [hupdate, Function.update_self, if_neg (h k (Nat.lt_succ_self k)), nextTurn,
          wrap_wrap_add_one, codeOffset]
        push_cast
        rfl
      · rw [callsOf_append, hcalls, callsOf_self, List.range_succ, List.map_append]
        rfl

/-- Where the offsets are exact, so is each call that is made. -/
theorem OffsetsExact.codeOffset_eq {file : Bytes} {block : Nat} (hexact : OffsetsExact file block n)
    (i : Fin n) (k : Nat) (h : ∀ j < k, pread file block (codeOffset block n i j) ≠ []) :
    codeOffset block n i k = exactOffset block n i k := by
  obtain ⟨history, r, hreach, hthread, hcalls⟩ := reach_reading file block i k h
  obtain ⟨next, hnext, -⟩ := Reader.step_thread file block hthread
  have hmore := Reach.step hreach trivial hnext
  obtain ⟨k', heq, -, -⟩ := hexact _ _ hmore i
  rw [callsOf_append, hcalls, callsOf_self] at heq
  have hlength : k + 1 = k' := by simpa [exactCalls] using congrArg List.length heq
  rw [← hlength, exactCalls_succ] at heq
  exact List.singleton_inj.mp (List.append_inj_right' heq rfl)

end Runs

/-! ## Where the arithmetic fits -/

/-- What must fit into an `int`: the product of the last thread, and the count of
the first. -/
structure OffsetsFit (file : Bytes) (block n : Nat) : Prop where
  product : (((n - 1) * block : Nat) : Int) ≤ intMax
  count : (file.length : Int) ≤ intMax * (n * block : Nat)

/-- A product that does not fit gives another offset. -/
theorem le_intMax_of_toUlong_wrap {x : Int} (hx : x < 2 ^ 62) (h : toUlong (wrap x) = x) :
    x ≤ intMax := by
  by_contra hbig
  have hlow := Int.le_bmod (x := x) (m := 2 ^ 32) (by decide)
  have hhigh := Int.bmod_lt (x := x) (m := 2 ^ 32) (by decide)
  unfold toUlong wrap at h
  unfold intMax at hbig
  omega

/-- A count that wrapped gives another offset. -/
theorem wrapped_count_offset_ne {stride : Int} (hpos : 0 < stride) (hlt : stride < 2 ^ 32) :
    toUlong (wrap (2 ^ 31) * stride) ≠ 2 ^ 31 * stride := by
  have hwrap : wrap (2 ^ 31) = -2 ^ 31 := by decide
  rw [hwrap]
  unfold toUlong
  omega

theorem pread_ne_nil {file : Bytes} {block offset : Nat} (hblock : 0 < block)
    (hinside : offset < file.length) (hoff : (offset : Int) < 2 ^ 63) :
    pread file block offset ≠ [] := by
  rw [pread, if_pos hoff, Int.toNat_natCast]
  intro hnil
  rcases List.take_eq_nil_iff.mp hnil with hzero | hdrop
  · omega
  · rw [List.drop_eq_nil_iff] at hdrop
    omega

section Fit

variable {file : Bytes} {block n : Nat} (hblock : 0 < block) (hthreads : 1 ≤ n)
include hblock hthreads

theorem OffsetsFit.readerFits (h : OffsetsFit file block n) (halign : 4 ∣ block)
    (hint : (block : Int) ≤ intMax) : ReaderFits file block n := by
  refine ⟨hthreads, hblock, halign, hint, ?_, ?_⟩
  · intro i hi
    have hle : i * block ≤ (n - 1) * block := Nat.mul_le_mul_right _ (by omega)
    have hproduct := h.product
    omega
  · intro i hi k hk
    by_contra hbig
    have hcount := h.count
    unfold intMax at hbig hcount
    have hstride : (2 ^ 31 - 1) * (n * block) ≤ k * (n * block) :=
      Nat.mul_le_mul_right _ (by omega)
    have hle : k * (n * block) ≤ (k * n + i) * block := by
      rw [← Nat.mul_assoc]
      exact Nat.mul_le_mul_right _ (Nat.le_add_right _ _)
    omega

theorem OffsetsExact.product (h : OffsetsExact file block n) (hint : (block : Int) ≤ intMax)
    (hn : (n : Int) ≤ intMax) : (((n - 1) * block : Nat) : Int) ≤ intMax := by
  have hfirst : codeOffset block n (n - 1) 0 = exactOffset block n (n - 1) 0 :=
    h.codeOffset_eq ⟨n - 1, by omega⟩ 0 fun j hj => absurd hj (Nat.not_lt_zero j)
  rw [codeOffset, exactOffset, Nat.zero_mul, Nat.zero_add, ← Int.natCast_mul] at hfirst
  refine le_intMax_of_toUlong_wrap ?_ hfirst
  unfold intMax at hint hn
  calc (((n - 1) * block : Nat) : Int)
      ≤ ((2 ^ 31 - 1) * (2 ^ 31 - 1) : Nat) := by
        exact_mod_cast Nat.mul_le_mul (by omega) (by omega)
    _ < 2 ^ 62 := by decide

/-- The first thread reads on until its count wraps. -/
theorem OffsetsExact.count (h : OffsetsExact file block n)
    (hproduct : (((n - 1) * block : Nat) : Int) ≤ intMax) (hint : (block : Int) ≤ intMax) :
    (file.length : Int) ≤ intMax * (n * block : Nat) := by
  by_contra hlong
  have hstride : n * block < 2 ^ 32 := by
    have hsplit : n * block = (n - 1) * block + block := by
      rw [← Nat.succ_mul, Nat.succ_eq_add_one, Nat.sub_add_cancel hthreads]
    unfold intMax at hproduct hint
    omega
  have hoffset : ∀ j, exactOffset block n 0 j = j * (n * block) := by
    intro j
    rw [exactOffset, Nat.add_zero, Nat.mul_assoc]
  unfold intMax at hlong
  have hinside : ∀ j < 2 ^ 31, pread file block (codeOffset block n 0 j) ≠ [] := by
    intro j
    induction j using Nat.strongRecOn with
    | _ j ih =>
        intro hj
        have hcode : codeOffset block n 0 j = exactOffset block n 0 j :=
          h.codeOffset_eq ⟨0, hthreads⟩ j fun i hi => ih i hi (by omega)
        have hle : j * (n * block) ≤ (2 ^ 31 - 1) * (n * block) :=
          Nat.mul_le_mul_right _ (by omega)
        rw [hcode, hoffset]
        exact pread_ne_nil hblock (by omega) (by omega)
  obtain ⟨top, htop⟩ : ∃ top, top + 1 = 2 ^ 31 := ⟨2 ^ 31 - 1, by decide⟩
  have hlast : codeOffset block n 0 (top + 1) = exactOffset block n 0 (top + 1) :=
    h.codeOffset_eq ⟨0, hthreads⟩ (top + 1) fun j hj => hinside j (by omega)
  have hcount : (top : Int) + 1 = 2 ^ 31 := by exact_mod_cast htop
  have hstrides : ((n : Int) * wrap (2 ^ 31) + (0 : Nat)) * block =
      wrap (2 ^ 31) * (n * block : Nat) := by
    push_cast
    ring
  have hbeyond : (((top + 1) * (n * block) : Nat) : Int) = 2 ^ 31 * (n * block : Nat) := by
    rw [Int.natCast_mul, Int.natCast_add, Int.natCast_one, hcount]
  rw [hoffset, codeOffset, hcount, hstrides, hbeyond] at hlast
  exact wrapped_count_offset_ne (by exact_mod_cast Nat.mul_pos hthreads hblock)
    (by exact_mod_cast hstride) hlast

end Fit

/-- The calls of every thread are exact exactly when the product of the last thread
and the count of the first fit into an `int`. -/
theorem offsetsExact_iff (file : Bytes) {blockSize n : Nat} (hsize : 4 ≤ blockSize)
    (hint : (blockSize : Int) ≤ intMax) (hthreads : 1 ≤ n) (hn : (n : Int) ≤ intMax) :
    OffsetsExact file (wordBlock blockSize) n ↔ OffsetsFit file (wordBlock blockSize) n := by
  have hpos : 0 < wordBlock blockSize := by
    unfold wordBlock
    omega
  have hblock : (wordBlock blockSize : Int) ≤ intMax := by
    unfold wordBlock
    omega
  constructor
  · intro hexact
    have hproduct := hexact.product hpos hthreads hblock hn
    exact ⟨hproduct, hexact.count hpos hthreads hproduct hblock⟩
  · intro hfit
    exact (hfit.readerFits hpos hthreads (Nat.dvd_mul_right 4 _) hblock).offsetsExact

/-- Nine bytes, read by three threads in blocks of seven. -/
theorem offsetsExact_threeThreads : OffsetsExact [1, 2, 3, 4, 5, 6, 7, 8, 9] (wordBlock 7) 3 :=
  (offsetsExact_iff _ (by decide) (by decide) (by decide) (by decide)).mpr ⟨by decide, by decide⟩

/-- With blocks of 65536 bytes the product of thread 32768 does not fit, and its
block of a longer file is read by no one. -/
theorem last_product_wraps :
    ¬ OffsetsExact (List.replicate (2 ^ 31 + 65536) 0) (wordBlock 65536) 32769 := by
  intro hexact
  have hproduct := hexact.product (by decide) (by decide) (by decide) (by decide)
  exact absurd hproduct (by decide)

end OsCourse.Disk
