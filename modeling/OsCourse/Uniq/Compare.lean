import OsCourse.Uniq.Groups

/-! # The comparison of two lines

`string_compare` copies both strings into local arrays of exactly their lengths
and compares the arrays as strings. The arrays lie somewhere in a memory that
holds anything; every access to them is recorded.
-/

namespace OsCourse.Uniq

/-- The bytes of a NUL-terminated string. -/
abbrev CString := {s : Bytes // (0 : UInt8) ∉ s}

/-- `str_1_cmp` and `str_2_cmp`. -/
inductive LocalArray
  | first
  | second
  deriving DecidableEq, Repr

/-- A read or a write through the name of an array. -/
structure Access where
  array : LocalArray
  index : Nat
  write : Bool
  deriving DecidableEq, Repr

/-- The memory with the two arrays in it, and the accesses made so far. -/
structure Stack where
  base : LocalArray → Nat
  mem : Nat → UInt8
  log : List Access

namespace Stack

/-- The byte at an index of an array, in the array or not. -/
def byte (st : Stack) (array : LocalArray) (i : Nat) : UInt8 := st.mem (st.base array + i)

def read (st : Stack) (array : LocalArray) (i : Nat) : UInt8 × Stack :=
  (st.byte array i, { st with log := st.log ++ [⟨array, i, false⟩] })

def write (st : Stack) (array : LocalArray) (i : Nat) (c : UInt8) : Stack :=
  { st with
    mem := Function.update st.mem (st.base array + i) c
    log := st.log ++ [⟨array, i, true⟩] }

/-- Write bytes from index `i` on. -/
def writeAll (array : LocalArray) (i : Nat) : Bytes → Stack → Stack
  | [], st => st
  | c :: cs, st => writeAll array (i + 1) cs (st.write array i c)

end Stack

/-- `to_upper`, which writes no terminator. -/
def toUpper (str : Bytes) (copyStr : LocalArray) (st : Stack) : Stack :=
  st.writeAll copyStr 0 (str.map upper)

def strcpyLocal (dst : LocalArray) (src : Bytes) (st : Stack) : Stack :=
  st.writeAll dst 0 (src ++ [0])

/-- The difference `strcmp` returns, for which both bytes are read again. -/
def strcmpResult (i : Nat) (st : Stack) : Int × Stack :=
  let p := st.read .first i
  let q := p.2.read .second i
  ((p.1.toNat : Int) - q.1.toNat, q.2)

/-- `strcmp(str_1_cmp, str_2_cmp)` from index `i` on; it need not come to an
end. -/
def strcmp : Nat → Nat → Stack → Option (Int × Stack)
  | 0, _, _ => none
  | fuel + 1, i, st =>
      let p := st.read .first i
      if p.1 = 0 then some (strcmpResult i p.2)
      else
        let q := p.2.read .second i
        if p.1 = q.1 then strcmp fuel (i + 1) q.2 else some (strcmpResult i q.2)

def stringCompare (fuel : Nat) (str1 str2 : Bytes) (ignoreCase : Bool) (st : Stack) :
    Option (Int × Stack) :=
  let copied :=
    if ignoreCase then toUpper str2 .second (toUpper str1 .first st)
    else strcpyLocal .second str2 (strcpyLocal .first str1 st)
  (strcmp fuel 0 copied).map fun r => (if r.1 = 0 then 1 else 0, r.2)

/-- The sizes of the arrays. -/
def sizes (str1 str2 : Bytes) : LocalArray → Nat
  | .first => str1.length
  | .second => str2.length

/-- The arrays do not overlap. -/
def Separate (size base : LocalArray → Nat) : Prop :=
  ∀ i < size .first, ∀ j < size .second, base .first + i ≠ base .second + j

/-- Every byte that is read has been written before. -/
def ReadsWritten (log : List Access) : Prop :=
  ∀ before a after, log = before ++ a :: after → a.write = false →
    ⟨a.array, a.index, true⟩ ∈ before

/-- The comparison comes to an end, stays inside its arrays, reads only what it
has written, and is right, wherever the arrays are and whatever they hold. -/
def WellDefined (str1 str2 : Bytes) (ignoreCase : Bool) : Prop :=
  ∀ base mem, Separate (sizes str1 str2) base → ∃ fuel result st,
    stringCompare fuel str1 str2 ignoreCase ⟨base, mem, []⟩ = some (result, st) ∧
      (∀ a ∈ st.log, a.index < sizes str1 str2 a.array) ∧ ReadsWritten st.log ∧
      result = if same ignoreCase str1 str2 then 1 else 0

/-! ## Copying -/

namespace Stack

variable (array : LocalArray)

@[simp] theorem base_write (i : Nat) (c : UInt8) (st : Stack) :
    (st.write array i c).base = st.base := rfl

@[simp] theorem base_writeAll (i : Nat) (cs : Bytes) (st : Stack) :
    (st.writeAll array i cs).base = st.base := by
  induction cs generalizing i st with
  | nil => rfl
  | cons c cs ih => exact ih (i + 1) (st.write array i c)

theorem log_writeAll (i : Nat) (cs : Bytes) (st : Stack) :
    (st.writeAll array i cs).log =
      st.log ++ (List.range' i cs.length).map fun j => ⟨array, j, true⟩ := by
  induction cs generalizing i st with
  | nil => simp [writeAll]
  | cons c cs ih =>
      rw [writeAll, ih, write, List.length_cons, List.range'_succ, List.map_cons,
        List.append_assoc]
      rfl

theorem mem_writeAll_of_outside {i : Nat} {cs : Bytes} {st : Stack} {address : Nat}
    (h : ∀ j < cs.length, address ≠ st.base array + i + j) :
    (st.writeAll array i cs).mem address = st.mem address := by
  induction cs generalizing i st with
  | nil => rfl
  | cons c cs ih =>
      have hfirst : address ≠ st.base array + i := h 0 (by simp)
      rw [writeAll, ih]
      · exact Function.update_of_ne hfirst _ _
      · intro j hj
        have hnext := h (j + 1) (by simpa using hj)
        rw [base_write]
        omega

theorem byte_writeAll {i : Nat} {cs : Bytes} {st : Stack} {j : Nat} (hj : j < cs.length) :
    (st.writeAll array i cs).byte array (i + j) = cs[j] := by
  induction cs generalizing i j st with
  | nil => simp at hj
  | cons c cs ih =>
      rw [writeAll]
      cases j with
      | zero =>
          rw [byte, base_writeAll, mem_writeAll_of_outside]
          · simp [write]
          · intro k _
            omega
      | succ j =>
          have hnext := @ih (i + 1) (st.write array i c) j (by simpa using hj)
          rw [show i + 1 + j = i + (j + 1) by omega] at hnext
          exact hnext

end Stack

theorem upper_ne_zero {c : UInt8} (h : c ≠ 0) : upper c ≠ 0 := by
  unfold upper
  split
  next hlower =>
    intro hzero
    have hc : c = 32 := by
      rw [UInt8.sub_eq_iff_eq_add] at hzero
      simpa using hzero
    subst hc
    exact absurd hlower.1 (by decide)
  next => exact h

/-- The stack after both calls of `to_upper`. -/
def upperCopies (str1 str2 : Bytes) (base : LocalArray → Nat) (mem : Nat → UInt8) : Stack :=
  toUpper str2 .second (toUpper str1 .first ⟨base, mem, []⟩)

section UpperCopies

variable {str1 str2 : Bytes} {base : LocalArray → Nat} (mem : Nat → UInt8)

theorem upperCopies_byte_first (hsep : Separate (sizes str1 str2) base) {i : Nat}
    (hi : i < str1.length) : (upperCopies str1 str2 base mem).byte .first i = upper str1[i] := by
  have hwritten := @Stack.byte_writeAll .first 0 (str1.map upper) ⟨base, mem, []⟩ i
    (by simpa using hi)
  rw [Nat.zero_add, List.getElem_map] at hwritten
  rw [← hwritten, upperCopies, toUpper, toUpper, Stack.byte, Stack.base_writeAll,
    Stack.mem_writeAll_of_outside]
  · rfl
  · intro j hj
    rw [List.length_map] at hj
    rw [Stack.base_writeAll, Nat.add_zero]
    exact hsep i hi j hj

theorem upperCopies_byte_second {i : Nat} (hi : i < str2.length) :
    (upperCopies str1 str2 base mem).byte .second i = upper str2[i] := by
  have hwritten := @Stack.byte_writeAll .second 0 (str2.map upper)
    (toUpper str1 .first ⟨base, mem, []⟩) i (by simpa using hi)
  rwa [Nat.zero_add, List.getElem_map] at hwritten

theorem upperCopies_byte_eq_iff (hsep : Separate (sizes str1 str2) base) {i : Nat}
    (h1 : i < str1.length) (h2 : i < str2.length) :
    (upperCopies str1 str2 base mem).byte .first i =
        (upperCopies str1 str2 base mem).byte .second i ↔ upper str1[i] = upper str2[i] := by
  rw [upperCopies_byte_first mem hsep h1, upperCopies_byte_second mem h2]

theorem upperCopies_byte_ne_zero (hsep : Separate (sizes str1 str2) base)
    (hnul : (0 : UInt8) ∉ str1) {i : Nat} (hi : i < str1.length) :
    (upperCopies str1 str2 base mem).byte .first i ≠ 0 := by
  rw [upperCopies_byte_first mem hsep hi]
  exact upper_ne_zero fun hzero => hnul (hzero ▸ List.getElem_mem hi)

theorem mem_log_upperCopies {a : Access} :
    a ∈ (upperCopies str1 str2 base mem).log ↔
      a.write = true ∧ a.index < sizes str1 str2 a.array := by
  have hlog : (upperCopies str1 str2 base mem).log =
      (List.range' 0 str1.length).map (fun j => (⟨.first, j, true⟩ : Access)) ++
        (List.range' 0 str2.length).map fun j => ⟨.second, j, true⟩ := by
    simp [upperCopies, toUpper, Stack.log_writeAll]
  obtain ⟨array, index, write⟩ := a
  rw [hlog]
  cases array <;> simp [sizes, and_comm, eq_comm]

end UpperCopies

/-! ## Comparing -/

/-- Where the arrays first differ, before either has a NUL, `strcmp` stops; it
reads nothing beyond. -/
theorem strcmp_stops {st : Stack} {i k : Nat} (hik : i ≤ k)
    (hequal : ∀ j, i ≤ j → j < k → st.byte .first j = st.byte .second j)
    (hnul : ∀ j, i ≤ j → j ≤ k → st.byte .first j ≠ 0)
    (hdiffer : st.byte .first k ≠ st.byte .second k) :
    ∃ fuel result reads, result ≠ 0 ∧
      strcmp fuel i st = some (result, { st with log := st.log ++ reads }) ∧
      ∀ a ∈ reads, a.index ≤ k := by
  induction hsteps : k - i generalizing i st with
  | zero =>
      obtain rfl : i = k := by omega
      refine ⟨1, ((st.byte .first i).toNat : Int) - (st.byte .second i).toNat,
        [⟨.first, i, false⟩, ⟨.second, i, false⟩, ⟨.first, i, false⟩, ⟨.second, i, false⟩],
        ?_, ?_, by simp⟩
      · intro heq
        apply hdiffer
        apply UInt8.toNat_inj.mp
        omega
      · have hp : (st.read .first i).1 ≠ 0 := hnul i le_rfl le_rfl
        have hpq : (st.read .first i).1 ≠ ((st.read .first i).2.read .second i).1 := hdiffer
        simp only [strcmp, if_neg hp, if_neg hpq]
        simp [strcmpResult, Stack.read, Stack.byte]
  | succ steps ih =>
      have hlt : i < k := by omega
      have hp : (st.read .first i).1 ≠ 0 := hnul i le_rfl hik
      have hpq : (st.read .first i).1 = ((st.read .first i).2.read .second i).1 :=
        hequal i le_rfl hlt
      obtain ⟨fuel, result, reads, hresult, hrun, hreads⟩ :=
        @ih ((st.read .first i).2.read .second i).2 (i + 1) hlt
          (fun j hj hjk => hequal j (by omega) hjk) (fun j hj hjk => hnul j (by omega) hjk)
          hdiffer (by omega)
      refine ⟨fuel + 1, result, [⟨.first, i, false⟩, ⟨.second, i, false⟩] ++ reads, hresult,
        ?_, ?_⟩
      · simp only [strcmp, if_neg hp, if_pos hpq]
        rw [hrun]
        simp [Stack.read]
      · intro a ha
        rcases List.mem_append.mp ha with ha | ha
        · rcases List.mem_pair.mp ha with rfl | rfl
          · exact hik
          · exact hik
        · exact hreads a ha

theorem Stack.log_prefix_read (st : Stack) (array : LocalArray) (i : Nat) :
    st.log <+: (st.read array i).2.log :=
  List.prefix_append _ _

theorem log_prefix_strcmpResult (i : Nat) (st : Stack) : st.log <+: (strcmpResult i st).2.log :=
  (st.log_prefix_read .first i).trans (Stack.log_prefix_read _ .second i)

theorem log_prefix_of_strcmp {fuel i : Nat} {st : Stack} {r : Int × Stack}
    (h : strcmp fuel i st = some r) : st.log <+: r.2.log := by
  induction fuel generalizing i st with
  | zero => cases h
  | succ fuel ih =>
      have hp := st.log_prefix_read .first i
      have hq := hp.trans (Stack.log_prefix_read _ .second i)
      simp only [strcmp] at h
      split at h
      · obtain rfl := Option.some.inj h
        exact hp.trans (log_prefix_strcmpResult i _)
      · split at h
        · exact hq.trans (ih h)
        · obtain rfl := Option.some.inj h
          exact hq.trans (log_prefix_strcmpResult i _)

/-- One turn of `strcmp`: the first array is read, the second one after a byte
that is not NUL, and equal bytes lead to the next turn. -/
theorem strcmp_succ {fuel i : Nat} {st : Stack} {r : Int × Stack}
    (h : strcmp (fuel + 1) i st = some r) :
    (⟨.first, i, false⟩ : Access) ∈ r.2.log ∧
      (st.byte .first i ≠ 0 → (⟨.second, i, false⟩ : Access) ∈ r.2.log ∧
        (st.byte .first i = st.byte .second i →
          strcmp fuel (i + 1) ((st.read .first i).2.read .second i).2 = some r)) := by
  have hfirst : (⟨.first, i, false⟩ : Access) ∈ (st.read .first i).2.log := by
    simp [Stack.read]
  have hsecond : (⟨.second, i, false⟩ : Access) ∈
      ((st.read .first i).2.read .second i).2.log := by
    simp [Stack.read]
  have hq := Stack.log_prefix_read (st.read .first i).2 .second i
  simp only [strcmp] at h
  split at h
  next hnul =>
    obtain rfl := Option.some.inj h
    exact ⟨(log_prefix_strcmpResult i _).subset hfirst, fun hbyte => absurd hnul hbyte⟩
  next =>
    split at h
    next heq =>
      have hlog := log_prefix_of_strcmp h
      exact ⟨hlog.subset (hq.subset hfirst), fun _ => ⟨hlog.subset hsecond, fun _ => h⟩⟩
    next hne =>
      obtain rfl := Option.some.inj h
      have hlog := log_prefix_strcmpResult i ((st.read .first i).2.read .second i).2
      exact ⟨hlog.subset (hq.subset hfirst),
        fun _ => ⟨hlog.subset hsecond, fun heq => absurd heq hne⟩⟩

/-- Arrays that agree up to the end of one of them are read beyond it. -/
theorem strcmp_reads_outside {str1 str2 : Bytes} {st : Stack}
    (hequal : ∀ j, j < str1.length → j < str2.length → st.byte .first j = st.byte .second j)
    (hnul : ∀ j < str1.length, st.byte .first j ≠ 0) {fuel i : Nat} (hi1 : i ≤ str1.length)
    (hi2 : i ≤ str2.length) {r : Int × Stack} (h : strcmp fuel i st = some r) :
    ∃ a ∈ r.2.log, ¬a.index < sizes str1 str2 a.array := by
  induction fuel generalizing i st with
  | zero => cases h
  | succ fuel ih =>
      obtain ⟨hfirst, hsecond⟩ := strcmp_succ h
      by_cases hend1 : i = str1.length
      · exact ⟨_, hfirst, by simp [sizes, hend1]⟩
      · obtain ⟨hread, hnext⟩ := hsecond (hnul i (by omega))
        by_cases hend2 : i = str2.length
        · exact ⟨_, hread, by simp [sizes, hend2]⟩
        · have hagree := hequal i (by omega) (by omega)
          refine ih ?_ ?_ ?_ ?_ (hnext hagree)
          · exact hequal
          · exact hnul
          · omega
          · omega

/-- The strings, mapped to upper case, differ at an index that both have. -/
def DifferInside (str1 str2 : Bytes) : Prop :=
  ∃ i, ∃ (h1 : i < str1.length) (h2 : i < str2.length), upper str1[i] ≠ upper str2[i]

theorem DifferInside.same_eq_false {str1 str2 : Bytes} (h : DifferInside str1 str2) :
    same true str1 str2 = false := by
  obtain ⟨i, h1, h2, hdiffer⟩ := h
  have hmaps : str1.map upper ≠ str2.map upper := by
    intro heq
    have hgets := congrArg (·[i]?) heq
    simp only [List.getElem?_map, List.getElem?_eq_getElem h1, List.getElem?_eq_getElem h2,
      Option.map_some, Option.some.injEq] at hgets
    exact hdiffer hgets
  simpa [same, key] using hmaps

/-- A log is in order when it ends with the reads, all of bytes written. -/
theorem readsWritten_append {writes reads : List Access} (hwrites : ∀ a ∈ writes, a.write = true)
    (hreads : ∀ a ∈ reads, ⟨a.array, a.index, true⟩ ∈ writes) :
    ReadsWritten (writes ++ reads) := by
  intro before a after hlog ha
  have hmem : a ∈ reads → ⟨a.array, a.index, true⟩ ∈ writes := hreads a
  rcases List.append_eq_append_iff.mp hlog with ⟨more, rfl, hmore⟩ | ⟨more, hmore, hrest⟩
  · rw [hmore] at hmem
    exact List.mem_append_left _ (hmem (by simp))
  · cases more with
    | nil =>
        rw [List.nil_append] at hrest
        rw [← hrest, hmore, List.append_nil] at hmem
        exact hmem List.mem_cons_self
    | cons other more =>
        obtain ⟨rfl, -⟩ := List.cons.inj hrest
        have hwrite := hwrites a (by simp [hmore])
        rw [ha] at hwrite
        cases hwrite

/-- The comparison of copies that differ inside ends at the first difference. -/
theorem strcmp_upperCopies {str1 str2 : Bytes} (hnul : (0 : UInt8) ∉ str1)
    (h : DifferInside str1 str2) {base : LocalArray → Nat}
    (hsep : Separate (sizes str1 str2) base) (mem : Nat → UInt8) :
    ∃ fuel result reads, result ≠ 0 ∧
      strcmp fuel 0 (upperCopies str1 str2 base mem) = some (result,
        { upperCopies str1 str2 base mem with
          log := (upperCopies str1 str2 base mem).log ++ reads }) ∧
      ∀ a ∈ reads, a.index < sizes str1 str2 a.array := by
  classical
  obtain ⟨hk1, hk2, hdiffer⟩ := Nat.find_spec h
  have hequal : ∀ j, 0 ≤ j → j < Nat.find h → (upperCopies str1 str2 base mem).byte .first j =
      (upperCopies str1 str2 base mem).byte .second j := by
    intro j _ hj
    have hj1 : j < str1.length := hj.trans hk1
    have hj2 : j < str2.length := hj.trans hk2
    rw [upperCopies_byte_eq_iff mem hsep hj1 hj2]
    by_contra hne
    exact Nat.find_min h hj ⟨hj1, hj2, hne⟩
  obtain ⟨fuel, result, reads, hresult, hrun, hreads⟩ := strcmp_stops (Nat.zero_le _) hequal
    (fun j _ hj => upperCopies_byte_ne_zero mem hsep hnul (hj.trans_lt hk1))
    (mt (upperCopies_byte_eq_iff mem hsep hk1 hk2).mp hdiffer)
  refine ⟨fuel, result, reads, hresult, hrun, ?_⟩
  intro a ha
  have hle := hreads a ha
  cases harray : a.array with
  | first => exact hle.trans_lt hk1
  | second => exact hle.trans_lt hk2

/-- Strings that differ before either ends are compared as they should be. -/
theorem wellDefined_of_differInside {str1 str2 : Bytes} (h1 : (0 : UInt8) ∉ str1)
    (h : DifferInside str1 str2) : WellDefined str1 str2 true := by
  intro base mem hsep
  obtain ⟨fuel, result, reads, hresult, hrun, hinside⟩ := strcmp_upperCopies h1 h hsep mem
  refine ⟨fuel, 0, { upperCopies str1 str2 base mem with
    log := (upperCopies str1 str2 base mem).log ++ reads }, ?_, ?_, ?_, ?_⟩
  · simp only [stringCompare, if_true]
    rw [← upperCopies, hrun, Option.map_some, if_neg hresult]
  · intro a ha
    rcases List.mem_append.mp ha with ha | ha
    · exact ((mem_log_upperCopies mem).mp ha).2
    · exact hinside a ha
  · apply readsWritten_append
    · exact fun a ha => ((mem_log_upperCopies mem).mp ha).1
    · exact fun a ha => (mem_log_upperCopies mem).mpr ⟨rfl, hinside a ha⟩
  · rw [h.same_eq_false, if_neg Bool.false_ne_true]

/-- The arrays side by side in a memory of zeros. -/
def sideBySide (str1 : Bytes) : LocalArray → Nat
  | .first => 0
  | .second => str1.length

theorem separate_sideBySide (str1 str2 : Bytes) :
    Separate (sizes str1 str2) (sideBySide str1) := by
  intro i hi j _
  simp only [sizes, sideBySide] at *
  omega

/-- Without `-i` the terminator of the first copy is written beyond its array. -/
theorem not_wellDefined_false (str1 str2 : Bytes) : ¬WellDefined str1 str2 false := by
  intro hdefined
  obtain ⟨fuel, result, st, hrun, hinside, -, -⟩ :=
    hdefined (sideBySide str1) (fun _ => 0) (separate_sideBySide str1 str2)
  simp only [stringCompare, Bool.false_eq_true, if_false, Option.map_eq_some_iff] at hrun
  obtain ⟨r, hstrcmp, heq⟩ := hrun
  obtain ⟨-, rfl⟩ := Prod.mk.inj heq
  have hnul : (⟨.first, str1.length, true⟩ : Access) ∈ r.2.log := by
    apply (log_prefix_of_strcmp hstrcmp).subset
    simp [strcpyLocal, Stack.log_writeAll]
  exact absurd (hinside _ hnul) (lt_irrefl _)

/-- With `-i` the copies have no terminators, so only a difference stops `strcmp`
inside the arrays. -/
theorem differInside_of_wellDefined {str1 str2 : Bytes} (h1 : (0 : UInt8) ∉ str1)
    (h : WellDefined str1 str2 true) : DifferInside str1 str2 := by
  have hsep := separate_sideBySide str1 str2
  obtain ⟨fuel, result, st, hrun, hinside, -, -⟩ := h (sideBySide str1) (fun _ => 0) hsep
  simp only [stringCompare, if_true, Option.map_eq_some_iff] at hrun
  obtain ⟨r, hstrcmp, heq⟩ := hrun
  obtain ⟨-, rfl⟩ := Prod.mk.inj heq
  rw [← upperCopies] at hstrcmp
  by_contra hsame
  have hequal : ∀ j, j < str1.length → j < str2.length →
      (upperCopies str1 str2 (sideBySide str1) fun _ => 0).byte .first j =
        (upperCopies str1 str2 (sideBySide str1) fun _ => 0).byte .second j := by
    intro j hj1 hj2
    rw [upperCopies_byte_eq_iff _ hsep hj1 hj2]
    by_contra hne
    exact hsame ⟨j, hj1, hj2, hne⟩
  obtain ⟨a, ha, houtside⟩ := strcmp_reads_outside hequal
    (fun j hj => upperCopies_byte_ne_zero _ hsep h1 hj) (Nat.zero_le _) (Nat.zero_le _) hstrcmp
  exact houtside (hinside a ha)

/-- `string_compare` is well defined exactly when case is ignored and the strings
differ before either ends. -/
theorem stringCompare_wellDefined_iff (str1 str2 : CString) (ignoreCase : Bool) :
    WellDefined str1.1 str2.1 ignoreCase ↔ ignoreCase = true ∧ DifferInside str1.1 str2.1 := by
  cases ignoreCase with
  | false => exact iff_of_false (not_wellDefined_false _ _) (fun h => Bool.false_ne_true h.1)
  | true =>
      constructor
      · exact fun h => ⟨rfl, differInside_of_wellDefined str1.2 h⟩
      · exact fun h => wellDefined_of_differInside str1.2 h.2

/-- Comparing `a` with itself is not well defined, with or without `-i`. -/
theorem stringCompare_equal_notWellDefined :
    ¬WellDefined [97] [97] false ∧ ¬WellDefined [97] [97] true := by
  refine ⟨not_wellDefined_false _ _, ?_⟩
  intro h
  obtain ⟨i, _, _, hdiffer⟩ := differInside_of_wellDefined (by decide) h
  exact hdiffer rfl

end OsCourse.Uniq
