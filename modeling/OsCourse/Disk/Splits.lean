import OsCourse.Disk.Words
import Mathlib.Data.Set.Basic
import Mathlib.Algebra.GroupWithZero.Nat
import Mathlib.Algebra.Order.BigOperators.Group.List

/-! # How `read` splits a file

A sequential reader groups the bytes of each `read` result into words from its
first byte on, and drops what is left over. What it prints is then the exclusive
or of the words of the file as long as no result ends inside one of them.
-/

namespace OsCourse.Disk

/-- The numbers of bytes that the successive `read` calls return. -/
def split (reads : List Bytes) : List Nat := reads.map List.length

/-- No call returns bytes up to the middle of a word of the file. -/
def CutsNoWord (lengths : List Nat) : Prop :=
  ∀ front, front <+: lengths → front.sum < 4 * (lengths.sum / 4) → 4 ∣ front.sum

/-- Both readers print the exclusive or of the words of the file; the one of
`run_blocksize.c` when it may make that many calls. -/
def PrintsXor (reads : List Bytes) : Prop :=
  fastDiskRead reads = xorAll (words reads.flatten) ∧
    ∀ blockCount : Int, reads.length ≤ blockCount →
      blocksizeDiskRead blockCount reads = xorAll (words reads.flatten)

/-- What two runs over one file print, whatever the results of their calls. -/
def AgreeOnFile (reads other : List Bytes) : Prop :=
  fastDiskRead reads = fastDiskRead other ∧
    ∀ blockCount blockCount' : Int, reads.length ≤ blockCount → other.length ≤ blockCount' →
      blocksizeDiskRead blockCount reads = blocksizeDiskRead blockCount' other

/-! ## The words that are read -/

theorem fastDiskRead_eq_xorAll (reads : List Bytes) :
    fastDiskRead reads = xorAll (reads.flatMap words) := by
  suffices h : ∀ xor, reads.foldl (fun xor chunk => xor ^^^ xorChunk chunk) xor =
      xor ^^^ xorAll (reads.flatMap words) by
    rw [fastDiskRead, h 0, UInt32.zero_xor]
  induction reads with
  | nil =>
      intro xor
      exact UInt32.xor_zero.symm
  | cons chunk reads ih =>
      intro xor
      rw [List.foldl_cons, ih, List.flatMap_cons, xorAll_append, xorChunk_eq, UInt32.xor_assoc]

theorem blocksizeDiskRead_eq_fast {blockCount : Int} {reads : List Bytes}
    (h : reads.length ≤ blockCount) : blocksizeDiskRead blockCount reads = fastDiskRead reads := by
  rw [blocksizeDiskRead, blocksizeLoop_eq, Int.sub_zero, List.take_of_length_le (by omega),
    fastDiskRead]

/-- Bytes that complete no word leave the words as they are. -/
theorem words_append_of_div {first second : Bytes}
    (h : (first.length + second.length) / 4 = first.length / 4) :
    words (first ++ second) = words first := by
  fun_induction words first with
  | case1 a b c d rest ih =>
      have hrest : (rest.length + second.length) / 4 = rest.length / 4 := by
        simp only [List.length_cons] at h
        omega
      simp only [List.cons_append, words, ih hrest]
  | case2 first hshort =>
      have hfirst : first.length < 4 := by
        rcases first with _ | ⟨a, _ | ⟨b, _ | ⟨c, _ | ⟨d, rest⟩⟩⟩⟩
        · simp
        · simp
        · simp
        · simp
        · exact absurd rfl (hshort a b c d rest)
      apply List.eq_nil_of_length_eq_zero
      rw [length_words, List.length_append, h]
      omega

/-! ## Splits between words -/

theorem sum_split (reads : List Bytes) : (split reads).sum = reads.flatten.length :=
  List.length_flatten.symm

theorem cutsNoWord_nil : CutsNoWord [] := by
  intro front hfront _
  rw [List.prefix_nil.mp hfront]
  exact Nat.dvd_zero 4

/-- The first result ends between two words, or all that follows it completes no
word. -/
theorem cutsNoWord_cons {n : Nat} {lengths : List Nat} :
    CutsNoWord (n :: lengths) ↔
      4 ∣ n ∧ CutsNoWord lengths ∨ (n + lengths.sum) / 4 = n / 4 := by
  constructor
  · intro h
    by_cases hn : 4 ∣ n
    · refine Or.inl ⟨hn, fun front hfront hlt => ?_⟩
      have hcons := h (n :: front) (List.cons_prefix_cons.mpr ⟨rfl, hfront⟩)
      simp only [List.sum_cons] at hcons
      omega
    · right
      by_contra hne
      have hone := h [n] (List.cons_prefix_cons.mpr ⟨rfl, List.nil_prefix⟩)
      simp only [List.sum_cons, List.sum_nil, Nat.add_zero] at hone
      omega
  · intro h front hfront hlt
    rcases List.prefix_cons_iff.mp hfront with rfl | ⟨rest, rfl, hrest⟩
    · exact Nat.dvd_zero 4
    · simp only [List.sum_cons] at hlt ⊢
      rcases h with ⟨hn, hcuts⟩ | hend
      · have hdvd := hcuts rest hrest (by omega)
        omega
      · omega

/-- Along such a split the words of the results are the words of the file. -/
theorem flatMap_words_eq {reads : List Bytes} (h : CutsNoWord (split reads)) :
    reads.flatMap words = words reads.flatten := by
  induction reads with
  | nil => rfl
  | cons chunk reads ih =>
      rw [List.flatMap_cons, List.flatten_cons]
      rcases cutsNoWord_cons.mp h with ⟨hchunk, hreads⟩ | hend
      · rw [ih hreads, words_append hchunk]
      · rw [← split, sum_split] at hend
        have hrest : reads.flatMap words = [] := by
          apply List.flatMap_eq_nil_iff.mpr
          intro other hother
          have hle := (List.sublist_flatten_of_mem hother).length_le
          apply List.eq_nil_of_length_eq_zero
          rw [length_words]
          omega
        rw [hrest, List.append_nil, words_append_of_div hend]

theorem printsXor_of_cutsNoWord {reads : List Bytes} (h : CutsNoWord (split reads)) :
    PrintsXor reads := by
  have hfast : fastDiskRead reads = xorAll (words reads.flatten) := by
    rw [fastDiskRead_eq_xorAll, flatMap_words_eq h]
  refine ⟨hfast, fun blockCount hcount => ?_⟩
  rw [blocksizeDiskRead_eq_fast hcount, hfast]

theorem PrintsXor.agreeOnFile {reads other : List Bytes} (hreads : PrintsXor reads)
    (hother : PrintsXor other) (h : reads.flatten = other.flatten) : AgreeOnFile reads other := by
  constructor
  · rw [hreads.1, hother.1, h]
  · intro blockCount blockCount' hcount hcount'
    rw [hreads.2 blockCount hcount, hother.2 blockCount' hcount', h]

/-! ## Splits inside a word

A file of zeros with a single one, at the start of the first word that is cut:
the readers see no word with a one in it.
-/

/-- A text of zeros. -/
def zeros (n : Nat) : Bytes := List.replicate n 0

theorem length_zeros (n : Nat) : (zeros n).length = n := List.length_replicate

theorem xorAll_words_zeros (n : Nat) : xorAll (words (zeros n)) = 0 := by
  induction n using Nat.strongRecOn with
  | _ n ih =>
      match n with
      | 0 => rfl
      | 1 => rfl
      | 2 => rfl
      | 3 => rfl
      | n + 4 =>
          have hrest := ih n (by omega)
          have hcons : words (zeros (n + 4)) = word 0 0 0 0 :: words (zeros n) := rfl
          rw [hcons, ← List.singleton_append, xorAll_append, hrest]
          rfl

/-- Whole words of zeros at the start change nothing. -/
theorem xorAll_words_zeros_append {n : Nat} (h : 4 ∣ n) (text : Bytes) :
    xorAll (words (zeros n ++ text)) = xorAll (words text) := by
  have halign : 4 ∣ (zeros n).length := by rwa [length_zeros]
  rw [words_append halign, xorAll_append, xorAll_words_zeros, UInt32.zero_xor]

/-- A result of `n` bytes, all zero but the first one after its whole words. -/
def markedChunk (n : Nat) : Bytes := zeros (4 * (n / 4)) ++ 1 :: zeros (n % 4 - 1)

theorem length_markedChunk {n : Nat} (h : ¬ 4 ∣ n) : (markedChunk n).length = n := by
  simp only [markedChunk, List.length_append, List.length_cons, length_zeros]
  omega

theorem flatten_map_zeros (lengths : List Nat) :
    (lengths.map zeros).flatten = zeros lengths.sum := by
  induction lengths with
  | nil => rfl
  | cons n lengths ih =>
      rw [List.map_cons, List.flatten_cons, ih, List.sum_cons, zeros, zeros, zeros,
        List.replicate_append_replicate]

theorem split_map_zeros (lengths : List Nat) : split (lengths.map zeros) = lengths := by
  unfold split
  rw [List.map_map]
  have hlength : List.length ∘ zeros = id := by
    funext n
    exact length_zeros n
  rw [hlength, List.map_id]

theorem xorAll_flatMap_zeros (lengths : List Nat) :
    xorAll ((lengths.map zeros).flatMap words) = 0 := by
  induction lengths with
  | nil => rfl
  | cons n lengths ih =>
      rw [List.map_cons, List.flatMap_cons, xorAll_append, ih, xorAll_words_zeros]
      rfl

/-- The one is in no whole word of its result. -/
theorem xorAll_words_markedChunk (n : Nat) : xorAll (words (markedChunk n)) = 0 := by
  have hend : (1 :: zeros (n % 4 - 1)).length < 4 := by
    rw [List.length_cons, length_zeros]
    omega
  have hwords : words (1 :: zeros (n % 4 - 1)) = [] := by
    apply List.eq_nil_of_length_eq_zero
    rw [length_words]
    omega
  rw [markedChunk, xorAll_words_zeros_append (Nat.dvd_mul_right 4 (n / 4)), hwords]
  rfl

/-- With the bytes that follow it starts one. -/
theorem xorAll_words_marked {n rest : Nat} (hn : ¬ 4 ∣ n) (h : (n + rest) / 4 ≠ n / 4) :
    xorAll (words (markedChunk n ++ zeros rest)) = 1 := by
  obtain ⟨k, hk⟩ : ∃ k, n % 4 - 1 + rest = k + 3 := ⟨n % 4 - 1 + rest - 3, by omega⟩
  have htail : zeros (n % 4 - 1) ++ zeros rest = zeros (k + 3) := by
    rw [zeros, zeros, List.replicate_append_replicate, hk, zeros]
  have hword : words (1 :: zeros (k + 3)) = word 1 0 0 0 :: words (zeros k) := rfl
  rw [markedChunk, List.append_assoc, xorAll_words_zeros_append (Nat.dvd_mul_right 4 (n / 4)),
    List.cons_append, htail, hword, ← List.singleton_append, xorAll_append, xorAll_words_zeros]
  rfl

/-- A split that cuts a word shows on some file. -/
theorem cutsNoWord_of_fastDiskRead {lengths : List Nat}
    (h : ∀ reads, split reads = lengths → fastDiskRead reads = xorAll (words reads.flatten)) :
    CutsNoWord lengths := by
  induction lengths with
  | nil => exact cutsNoWord_nil
  | cons n lengths ih =>
      apply cutsNoWord_cons.mpr
      by_cases hn : 4 ∣ n
      · -- a first result of zeros changes nothing on either side
        refine Or.inl ⟨hn, ih fun reads hreads => ?_⟩
        have hsplit : split (zeros n :: reads) = n :: lengths := by
          rw [← hreads, split, List.map_cons, length_zeros, split]
        have hcons := h _ hsplit
        rw [fastDiskRead_eq_xorAll, List.flatMap_cons, List.flatten_cons,
          xorAll_words_zeros_append hn, xorAll_append, xorAll_words_zeros,
          UInt32.zero_xor] at hcons
        rw [fastDiskRead_eq_xorAll, hcons]
      · right
        by_contra hne
        have hsplit : split (markedChunk n :: lengths.map zeros) = n :: lengths := by
          have hrest := split_map_zeros lengths
          rw [split] at hrest
          rw [split, List.map_cons, hrest, length_markedChunk hn]
        have hmarked := h _ hsplit
        rw [fastDiskRead_eq_xorAll, List.flatMap_cons, xorAll_append, xorAll_words_markedChunk,
          xorAll_flatMap_zeros, List.flatten_cons, flatten_map_zeros,
          xorAll_words_marked hn hne] at hmarked
        exact absurd hmarked (by decide)

/-- Whatever splits are possible: what is printed is the exclusive or of the words
of the file, and the same for every split of it, exactly when no possible split
cuts a word. -/
theorem splits_print_xor_iff (splits : Set (List Nat)) :
    (∀ reads, split reads ∈ splits →
        PrintsXor reads ∧
        ∀ other, split other ∈ splits → reads.flatten = other.flatten → AgreeOnFile reads other) ↔
      ∀ lengths ∈ splits, CutsNoWord lengths := by
  constructor
  · intro h lengths hlengths
    apply cutsNoWord_of_fastDiskRead
    intro reads hreads
    exact (h reads (hreads.symm ▸ hlengths)).1.1
  · intro h reads hreads
    have hprints := printsXor_of_cutsNoWord (h _ hreads)
    exact ⟨hprints, fun other hother => hprints.agreeOnFile (printsXor_of_cutsNoWord (h _ hother))⟩

/-- The word of a file of four bytes is lost when they arrive in two halves. -/
theorem two_halves_lose_the_word :
    [[1, 0], [0, 0]].flatten = [[(1 : UInt8), 0, 0, 0]].flatten ∧
      ¬ PrintsXor [[1, 0], [0, 0]] ∧ ¬ AgreeOnFile [[1, 0], [0, 0]] [[1, 0, 0, 0]] := by
  refine ⟨rfl, fun h => ?_, fun h => ?_⟩
  · exact absurd h.1 (by decide)
  · exact absurd h.1 (by decide)

end OsCourse.Disk
