import OsCourse.Uniq.Framing

/-! # Reading the counts back

Every line that `uniq -c` prints starts with a decimal number and a blank, and the
rest is a line of the input. Printing each line as often as its number says gives
the input back, up to case with `-i`.
-/

namespace OsCourse.Uniq

open CBuffer MachineInt

def isDigit (c : UInt8) : Bool := 48 ≤ c && c ≤ 57

/-- The number a printed line starts with. -/
def countOf (out : Bytes) : Nat :=
  (out.takeWhile isDigit).foldl (fun n c => 10 * n + (c.toNat - 48)) 0

/-- The printed line after the number and the blank. -/
def textOf (out : Bytes) : Bytes := (out.dropWhile isDigit).tail

/-- Undo `uniq -c`. -/
def expand (out : Bytes) : Bytes :=
  unlines ((lines out).flatMap fun line => List.replicate (countOf line) (textOf line))

/-! ## Decimal numbers -/

theorem ascii_toString (n : Nat) :
    ascii (toString (n : Int)) = (Nat.toDigits 10 n).map fun c => UInt8.ofNat c.toNat := by
  have hrepr : toString (n : Int) = n.repr := rfl
  rw [ascii, hrepr, Nat.toList_repr]

/-- A digit is printed as one byte. -/
theorem toNat_ofNat_digit {c : Char} (hc : c.isDigit) :
    48 ≤ c.toNat ∧ c.toNat ≤ 57 ∧ (UInt8.ofNat c.toNat).toNat = c.toNat := by
  have hbounds : 48 ≤ c.toNat ∧ c.toNat ≤ 57 := by
    simpa [Char.isDigit, UInt32.le_iff_toNat_le] using hc
  refine ⟨hbounds.1, hbounds.2, ?_⟩
  rw [UInt8.toNat_ofNat']
  omega

theorem isDigit_of_mem_ascii (n : Nat) : ∀ c ∈ ascii (toString (n : Int)), isDigit c = true := by
  rw [ascii_toString]
  intro c hc
  obtain ⟨d, hd, rfl⟩ := List.mem_map.mp hc
  obtain ⟨hlow, hhigh, hbyte⟩ :=
    toNat_ofNat_digit (Nat.isDigit_of_mem_toDigits (by decide) (by decide) hd)
  rw [isDigit, Bool.and_eq_true, decide_eq_true_eq, decide_eq_true_eq, UInt8.le_iff_toNat_le,
    UInt8.le_iff_toNat_le, hbyte]
  exact ⟨hlow, hhigh⟩

theorem foldl_digits {digits : List Char} (h : ∀ c ∈ digits, c.isDigit) (init : Nat) :
    (digits.map fun c => UInt8.ofNat c.toNat).foldl (fun n c => 10 * n + (c.toNat - 48)) init =
      Nat.ofDigitChars 10 digits init := by
  induction digits generalizing init with
  | nil => rfl
  | cons c digits ih =>
      obtain ⟨hc, hrest⟩ := List.forall_mem_cons.mp h
      rw [List.map_cons, List.foldl_cons, (toNat_ofNat_digit hc).2.2, ih hrest,
        Nat.ofDigitChars_cons]
      rfl

/-! ## Printed lines -/

/-- What `uniq -c` prints for a line, without the newline. -/
def numbered (n : Nat) (line : Bytes) : Bytes :=
  ascii (toString (n : Int)) ++ ascii " " ++ line

theorem splitNumber (n : Nat) (line : Bytes) :
    (numbered n line).takeWhile isDigit = ascii (toString (n : Int)) ∧
      (numbered n line).dropWhile isDigit = 32 :: line := by
  have hdigits := isDigit_of_mem_ascii n
  have hblank : numbered n line = ascii (toString (n : Int)) ++ 32 :: line := by
    rw [numbered, List.append_assoc]
    rfl
  rw [hblank, List.takeWhile_append_of_pos hdigits, List.dropWhile_append_of_pos hdigits]
  exact ⟨List.append_nil _, rfl⟩

theorem countOf_numbered (n : Nat) (line : Bytes) : countOf (numbered n line) = n := by
  have hdigits : ∀ c ∈ Nat.toDigits 10 n, c.isDigit := fun c hc =>
    Nat.isDigit_of_mem_toDigits (by decide) (by decide) hc
  rw [countOf, (splitNumber n line).1, ascii_toString, foldl_digits hdigits]
  exact Nat.ofDigitChars_toDigits (by decide) (by decide)

theorem textOf_numbered (n : Nat) (line : Bytes) : textOf (numbered n line) = line := by
  rw [textOf, (splitNumber n line).2, List.tail_cons]

theorem newline_notMem_numbered {n : Nat} {line : Bytes} (h : newline ∉ line) :
    newline ∉ numbered n line := by
  intro hmem
  rcases List.mem_append.mp hmem with hmem | hmem
  · rcases List.mem_append.mp hmem with hmem | hmem
    · exact absurd (isDigit_of_mem_ascii n _ hmem) (by decide)
    · exact absurd hmem (by decide)
  · exact h hmem

/-- The printed lines, as they are read back. -/
theorem lines_render {outs : List (Int × Bytes)}
    (h : ∀ out ∈ outs, 0 ≤ out.1 ∧ newline ∉ out.2) :
    lines (outs.flatMap fun out => render true out.1 out.2) =
      outs.map fun out => numbered out.1.toNat out.2 := by
  have htext : outs.flatMap (fun out => render true out.1 out.2) =
      unlines (outs.map fun out => numbered out.1.toNat out.2) := by
    rw [unlines, List.flatMap_map]
    apply List.flatMap_congr
    intro out hout
    rw [numbered, Int.toNat_of_nonneg (h out hout).1, List.append_assoc]
    rfl
  rw [htext]
  apply lines_unlines
  intro line hline
  obtain ⟨out, hout, rfl⟩ := List.mem_map.mp hline
  exact newline_notMem_numbered (h out hout).2

/-! ## The loop of `uniq_non_duplicate_mode` -/

section Loop

variable {ignore : Bool} {rest : List Bytes} {dupeCount : Int}

/-- Every count is at least 1 and belongs to a line of the input. -/
theorem counted_right (calls : Nat) {last : Bytes} (hcount : 1 ≤ dupeCount)
    (hfew : dupeCount + rest.length ≤ intMax) :
    ∀ out ∈ counted (fun _ => same ignore) calls dupeCount last rest,
      1 ≤ out.1 ∧ out.2 ∈ last :: rest := by
  induction rest generalizing calls dupeCount last with
  | nil =>
      intro out hout
      obtain rfl := List.mem_singleton.mp hout
      exact ⟨hcount, List.mem_cons_self⟩
  | cons line rest ih =>
      rw [List.length_cons, Nat.cast_add, Nat.cast_one] at hfew
      intro out hout
      rw [counted] at hout
      split at hout
      next =>
        have hwrap : wrap (dupeCount + 1) = dupeCount + 1 :=
          wrap_of_inRange (inRange_of_nonneg (by omega) (by omega) hfew)
        rw [hwrap] at hout
        obtain ⟨hone, hmem⟩ := ih _ (by omega) (by omega) out hout
        exact ⟨hone, List.cons_subset_cons last (List.subset_cons_self line rest) hmem⟩
      next =>
        rcases List.mem_cons.mp hout with rfl | hout
        · exact ⟨hcount, List.mem_cons_self⟩
        · obtain ⟨hone, hmem⟩ := ih _ le_rfl (by omega) out hout
          exact ⟨hone, List.mem_cons_of_mem _ hmem⟩

/-- As often as its count says, each line stands for an equal line of the input. -/
theorem counted_replicate (calls : Nat) {last : Bytes} (hcount : 1 ≤ dupeCount)
    (hfew : dupeCount + rest.length ≤ intMax) :
    ((counted (fun _ => same ignore) calls dupeCount last rest).flatMap
        fun out => List.replicate out.1.toNat out.2).map (key ignore) =
      (List.replicate dupeCount.toNat last ++ rest).map (key ignore) := by
  induction rest generalizing calls dupeCount last with
  | nil => simp [counted]
  | cons line rest ih =>
      rw [List.length_cons, Nat.cast_add, Nat.cast_one] at hfew
      rw [counted, same_append_right]
      split
      next hsame =>
        have hkey : key ignore last = key ignore line := by simpa [same] using hsame
        have hwrap : wrap (dupeCount + 1) = dupeCount + 1 :=
          wrap_of_inRange (inRange_of_nonneg (by omega) (by omega) hfew)
        have hsucc : (dupeCount + 1).toNat = dupeCount.toNat + 1 := by omega
        rw [hwrap, ih _ (by omega) (by omega), hsucc, List.replicate_succ']
        simp [hkey]
      next =>
        rw [List.flatMap_cons, List.map_append, ih _ le_rfl (by omega)]
        simp

end Loop

/-- Printing every line of the output of `uniq -c` as often as its count says gives
the lines of the file, up to case with `-i`; without `-i` it gives the file, with a
newline at its end. -/
theorem expand_uniq_counts (ignore : Bool) (file : Bytes) (hne : file ≠ [])
    (hnul : (0 : UInt8) ∉ file) (hlen : ∀ line ∈ lines file, line.length ≤ 1022)
    (hfew : (lines file).length < 2 ^ 31) :
    ∃ out, uniq (fun _ => same ignore) true false file = some out ∧
      (lines (expand out)).map (key ignore) = (lines file).map (key ignore) ∧
      (ignore = false → expand out =
        if file.getLast? ≠ some newline then file ++ [newline] else file) := by
  have hfits : ∀ line ∈ lines file, Fits line :=
    fun line hline => ⟨nulFree_of_mem_lines hnul line hline, hlen line hline⟩
  have hlines := lines_eq_cons hne
  have hbound : 1 + ((lines (afterLine file)).length : Int) ≤ intMax := by
    rw [hlines, List.length_cons] at hfew
    unfold intMax
    omega
  let outs := counted (fun _ => same ignore) 0 1 (firstLine file) (lines (afterLine file))
  have hright : ∀ out ∈ outs, 1 ≤ out.1 ∧ out.2 ∈ lines file := by
    rw [hlines]
    exact counted_right 0 le_rfl hbound
  have hread : lines (outs.flatMap fun out => render true out.1 out.2) =
      outs.map fun out => numbered out.1.toNat out.2 := by
    apply lines_render
    intro out hout
    obtain ⟨hone, hmem⟩ := hright out hout
    exact ⟨by omega, newline_notMem_of_mem_lines out.2 hmem⟩
  have hexpand : expand (outs.flatMap fun out => render true out.1 out.2) =
      unlines (outs.flatMap fun out => List.replicate out.1.toNat out.2) := by
    rw [expand, hread, List.flatMap_map]
    simp only [countOf_numbered, textOf_numbered]
  have hkeys : (outs.flatMap fun out => List.replicate out.1.toNat out.2).map (key ignore) =
      (lines file).map (key ignore) := by
    rw [counted_replicate 0 le_rfl hbound, hlines]
    rfl
  refine ⟨_, uniq_nonDuplicate_lines _ true hne hfits, ?_, ?_⟩
  · rw [hexpand, lines_unlines, hkeys]
    intro line hline
    obtain ⟨out, hout, hline⟩ := List.mem_flatMap.mp hline
    rw [(List.mem_replicate.mp hline).2]
    exact newline_notMem_of_mem_lines out.2 (hright out hout).2
  · rintro rfl
    have hid : key false = id := rfl
    rw [hid, List.map_id, List.map_id] at hkeys
    rw [hexpand, hkeys, unlines_lines]
    simp only [hne, ne_eq, not_false_eq_true, true_and]

/-- `a` three times, then `b`, the last without a newline. -/
theorem expand_uniq_counts_fourLines :
    ∃ out, uniq (fun _ => same false) true false [97, 10, 97, 10, 97, 10, 98] = some out ∧
      (lines (expand out)).map (key false) =
        (lines [97, 10, 97, 10, 97, 10, 98]).map (key false) ∧
      (false = false → expand out = [97, 10, 97, 10, 97, 10, 98, 10]) :=
  expand_uniq_counts false [97, 10, 97, 10, 97, 10, 98] (by decide) (by decide) (by decide)
    (by decide)

end OsCourse.Uniq
