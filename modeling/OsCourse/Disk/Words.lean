import OsCourse.Lib.Combine

/-! # Reading a file word by word

`fast.c` and `run_blocksize.c` read a file block by block and combine its
4-byte words by exclusive or. The loops run over the results of the successive
`read` calls; `fullReads` are the results when every call returns what was
requested or what is left.
-/

namespace OsCourse.Disk

open Combine

abbrev Bytes := List UInt8

/-- The `unsigned int` stored as four bytes, lowest first. -/
def word (a b c d : UInt8) : UInt32 :=
  a.toUInt32 ||| b.toUInt32 <<< 8 ||| c.toUInt32 <<< 16 ||| d.toUInt32 <<< 24

/-- The words of a text; up to three bytes at its end make no word. -/
def words : Bytes → List UInt32
  | a :: b :: c :: d :: rest => word a b c d :: words rest
  | _ => []

/-- The exclusive or of a list of words. -/
def xorAll (l : List UInt32) : UInt32 := total (· ^^^ ·) 0 l

def xorbuf (buffer : List UInt32) (size : Nat) : UInt32 :=
  (buffer.take size).foldl (· ^^^ ·) 0

/-- What a block that was read adds to `xor`. -/
def xorChunk (chunk : Bytes) : UInt32 := xorbuf (words chunk) (chunk.length / 4)

/-- `disk_read` of `fast.c`. -/
def fastDiskRead (reads : List Bytes) : UInt32 :=
  reads.foldl (fun xor chunk => xor ^^^ xorChunk chunk) 0

/-- The loop of `disk_read` in `run_blocksize.c`: a block is read before the
count is looked at. -/
def blocksizeLoop (blockCount count : Int) (xor : UInt32) : List Bytes → UInt32
  | [] => xor
  | chunk :: reads =>
      if count < blockCount then blocksizeLoop blockCount (count + 1) (xor ^^^ xorChunk chunk) reads
      else xor

def blocksizeDiskRead (blockCount : Int) (reads : List Bytes) : UInt32 :=
  blocksizeLoop blockCount 0 0 reads

/-- The results of `read` calls for `request` bytes up to the first that returns
nothing. -/
def fullReads (request : Nat) (file : Bytes) : List Bytes :=
  if file = [] ∨ request = 0 then []
  else file.take request :: fullReads request (file.drop request)
termination_by file.length
decreasing_by
  rename_i h
  rw [not_or] at h
  have hpos := List.length_pos_of_ne_nil h.1
  rw [List.length_drop]
  omega

/-! ## Words -/

theorem length_words (text : Bytes) : (words text).length = text.length / 4 := by
  fun_induction words text with
  | case1 a b c d rest ih =>
      simp only [List.length_cons, ih]
      omega
  | case2 text hshort =>
      match text with
      | [] => rfl
      | [_] => simp
      | [_, _] => simp
      | [_, _, _] => simp
      | a :: b :: c :: d :: rest => exact absurd rfl (hshort a b c d rest)

/-- Texts can be cut between words. -/
theorem words_append {first : Bytes} (h : 4 ∣ first.length) (second : Bytes) :
    words (first ++ second) = words first ++ words second := by
  fun_induction words first with
  | case1 a b c d rest ih =>
      have hrest : 4 ∣ rest.length := by
        simp only [List.length_cons] at h
        omega
      simp only [List.cons_append, words, ih hrest]
  | case2 first hshort =>
      match first with
      | [] => rfl
      | [_] => simp at h
      | [_, _] => simp at h
      | [_, _, _] => simp at h
      | a :: b :: c :: d :: rest => exact absurd rfl (hshort a b c d rest)

theorem xorAll_append (l m : List UInt32) : xorAll (l ++ m) = xorAll l ^^^ xorAll m :=
  total_append _ _ l m

theorem xorChunk_eq (chunk : Bytes) : xorChunk chunk = xorAll (words chunk) := by
  rw [xorChunk, xorbuf, ← length_words, List.take_length,
    foldl_eq_total (α := UInt32) (· ^^^ ·) 0, UInt32.zero_xor, xorAll]

/-- A block of whole words at the front of a text. -/
theorem xorAll_words_take {block : Nat} (h : 4 ∣ block) (text : Bytes) :
    xorAll (words text) =
      xorAll (words (text.take block)) ^^^ xorAll (words (text.drop block)) := by
  rcases Nat.lt_or_ge text.length block with hlt | hge
  · rw [List.take_of_length_le (Nat.le_of_lt hlt), List.drop_of_length_le (Nat.le_of_lt hlt)]
    exact UInt32.xor_zero.symm
  · have hlen : 4 ∣ (text.take block).length := by
      rwa [List.length_take_of_le hge]
    rw [← xorAll_append, ← words_append hlen, List.take_append_drop]

/-! ## Sequential readers -/

theorem fullReads_nil (request : Nat) : fullReads request [] = [] := by
  rw [fullReads, if_pos (Or.inl rfl)]

theorem fullReads_eq_cons {request : Nat} {file : Bytes} (hrequest : 0 < request)
    (hfile : file ≠ []) :
    fullReads request file = file.take request :: fullReads request (file.drop request) := by
  rw [fullReads, if_neg]
  rintro (h | h)
  · exact hfile h
  · omega

theorem length_fullReads_le {request : Nat} (hrequest : 0 < request) (file : Bytes) :
    (fullReads request file).length ≤ file.length := by
  induction hlen : file.length using Nat.strongRecOn generalizing file with
  | _ length ih =>
      by_cases hfile : file = []
      · rw [hfile, fullReads_nil]
        exact Nat.zero_le _
      · have hpos := List.length_pos_of_ne_nil hfile
        have hdrop : (file.drop request).length = file.length - request := List.length_drop
        have hrest := ih (file.drop request).length (by omega) _ rfl
        rw [fullReads_eq_cons hrequest hfile, List.length_cons]
        omega

/-- The loop of `run_blocksize.c` takes as many blocks as it may. -/
theorem blocksizeLoop_eq (blockCount count : Int) (xor : UInt32) (reads : List Bytes) :
    blocksizeLoop blockCount count xor reads =
      (reads.take (blockCount - count).toNat).foldl
        (fun xor chunk => xor ^^^ xorChunk chunk) xor := by
  induction reads generalizing count xor with
  | nil => simp [blocksizeLoop]
  | cons chunk reads ih =>
      rw [blocksizeLoop]
      split
      next hlt =>
        obtain ⟨k, hk⟩ : ∃ k, (blockCount - count).toNat = k + 1 :=
          ⟨(blockCount - count).toNat - 1, by omega⟩
        have hk' : (blockCount - (count + 1)).toNat = k := by omega
        rw [ih, hk, hk', List.take_succ_cons, List.foldl_cons]
      next hge =>
        have hzero : (blockCount - count).toNat = 0 := by omega
        rw [hzero]
        rfl

/-- The first `count` full reads cover the first `count` blocks. -/
theorem foldl_take_fullReads {request : Nat} (hrequest : 0 < request) (halign : 4 ∣ request)
    (count : Nat) (file : Bytes) (xor : UInt32) :
    ((fullReads request file).take count).foldl (fun xor chunk => xor ^^^ xorChunk chunk) xor =
      xor ^^^ xorAll (words (file.take (count * request))) := by
  induction count generalizing file xor with
  | zero => simp [words, xorAll]
  | succ count ih =>
      by_cases hfile : file = []
      · simp [hfile, fullReads_nil, words, xorAll]
      · have hblocks : (count + 1) * request = count * request + request := Nat.succ_mul _ _
        have htext := xorAll_words_take halign (file.take ((count + 1) * request))
        rw [List.take_take, List.drop_take, Nat.min_eq_left (by omega), hblocks,
          Nat.add_sub_cancel] at htext
        rw [fullReads_eq_cons hrequest hfile, List.take_succ_cons, List.foldl_cons, ih,
          xorChunk_eq, UInt32.xor_assoc, hblocks, htext]

theorem fastDiskRead_fullReads (file : Bytes) :
    fastDiskRead (fullReads 4096 file) = xorAll (words file) := by
  have hall := @foldl_take_fullReads 4096 (by decide) (by decide) file.length file 0
  rw [List.take_of_length_le (length_fullReads_le (by decide) file),
    List.take_of_length_le (by omega), UInt32.zero_xor] at hall
  exact hall

theorem blocksizeDiskRead_fullReads {request : Nat} (hrequest : 0 < request) (halign : 4 ∣ request)
    (blockCount : Int) (file : Bytes) :
    blocksizeDiskRead blockCount (fullReads request file) =
      xorAll (words (file.take (blockCount.toNat * request))) := by
  rw [blocksizeDiskRead, blocksizeLoop_eq, Int.sub_zero, foldl_take_fullReads hrequest halign,
    UInt32.zero_xor]

end OsCourse.Disk
