import OsCourse.Uniq.Groups

/-! # Reading a file line by line

`myreadline` once more, with the global `one_bit` that every `read` stores into.
At the end of the file `one_bit` still holds the byte before, which may be a
newline. Calls up to the one that returns 0 yield all of the file.
-/

namespace OsCourse.Uniq

open CBuffer

/-- What is left to read of a file, and `one_bit`. -/
structure InFile where
  rest : Bytes
  oneBit : UInt8

namespace InFile

/-- `read(in_fd, one_bit, 1)`: its result, and the file and `one_bit` after it. -/
def read (file : InFile) : Nat × InFile :=
  match file.rest with
  | [] => (0, file)
  | c :: rest => (1, ⟨rest, c⟩)

/-- `strcmp(one_bit, "\n") == 0`, with a 0 after `one_bit`. -/
def atNewline (file : InFile) : Bool := stringOf [file.oneBit, 0] = some [newline]

/-- The loop of `myreadline`, for as many turns as there is fuel: the result of the
last `read`, the final position, the line and the file. -/
def myreadlineLoop : Nat → LineBuffer → Nat → InFile → Option (Nat × Nat × LineBuffer × InFile)
  | 0, _, _, _ => none
  | fuel + 1, line, position, file =>
      let (numBytes, file) := file.read
      if file.atNewline ∨ numBytes = 0 then
        (store line position newline).map fun line => (numBytes, position, line, file)
      else
        (store line position file.oneBit).bind fun line =>
          myreadlineLoop fuel line (position + 1) file

/-- `myreadline`: its result, the line and the file after it. -/
def myreadline (file : InFile) : Option (Nat × LineBuffer × InFile) :=
  (myreadlineLoop (file.rest.length + 1) zeros 0 file).map fun (numBytes, position, line, file) =>
    (if numBytes = 0 ∧ position = 0 then 0 else 1, line, file)

/-- Calls of `myreadline` until one returns 0, for as many calls as there is fuel: the
strings in the buffer after the others. -/
def readLines : Nat → InFile → Option (List Bytes)
  | 0, _ => none
  | fuel + 1, file =>
      file.myreadline.bind fun (numBytes, line, file) =>
        if 0 < numBytes then
          (getString line).bind fun s => (readLines fuel file).map (s :: ·)
        else some []

/-! ## The byte before makes no difference -/

theorem atNewline_iff (file : InFile) : file.atNewline ↔ file.oneBit = newline := by
  rw [atNewline, decide_eq_true_eq, stringOf]
  split
  next hzero => simp [hzero, newline]
  next => simp [stringOf]

/-- The loop that keeps `one_bit` reads what the loop without it reads. -/
theorem myreadlineLoop_eq {fuel : Nat} (line : LineBuffer) (position : Nat) {file : InFile}
    (hfuel : file.rest.length < fuel) :
    (myreadlineLoop fuel line position file).map (fun r => (r.1, r.2.1, r.2.2.1, r.2.2.2.rest)) =
      Uniq.myreadlineLoop line position file.rest := by
  induction fuel generalizing line position file with
  | zero => omega
  | succ fuel ih =>
      obtain ⟨rest, oneBit⟩ := file
      rw [myreadlineLoop]
      cases rest with
      | nil =>
          -- the end of the file, whatever `one_bit` holds
          simp only [read, or_true, if_true, Option.map_map, Uniq.myreadlineLoop]
          rfl
      | cons c rest =>
          have hread : (InFile.mk rest c).atNewline = true ∨ 1 = 0 ↔ c = newline := by
            rw [atNewline_iff, or_iff_left (by decide)]
          simp only [read, hread, Uniq.myreadlineLoop]
          split
          · rw [Option.map_map]
            rfl
          · rw [Option.map_bind]
            congr 1
            funext line
            exact ih line (position + 1) (Nat.lt_of_succ_lt_succ hfuel)

theorem myreadline_rest (file : InFile) :
    file.myreadline.map (fun r => (r.1, r.2.1, r.2.2.rest)) = Uniq.myreadline file.rest := by
  rw [myreadline, Uniq.myreadline, ← myreadlineLoop_eq zeros 0 (Nat.lt_succ_self _),
    Option.map_map, Option.map_map]
  rfl

/-- The call at the end of the file returns 0. -/
theorem myreadline_of_nil {file : InFile} (h : file.rest = []) :
    ∃ line after, file.myreadline = some (0, line, after) := by
  have hrest := file.myreadline_rest
  rw [h, myreadline_nil] at hrest
  obtain ⟨⟨numBytes, line, after⟩, hcall, heq⟩ := Option.map_eq_some_iff.mp hrest
  obtain ⟨rfl, -⟩ := Prod.mk.inj heq
  exact ⟨line, after, hcall⟩

/-- Any other call takes a line that fits. -/
theorem myreadline_of_fits {file : InFile} (hne : file.rest ≠ [])
    (hfits : Fits (firstLine file.rest)) :
    ∃ after, file.myreadline = some (1, holding (firstLine file.rest), after) ∧
      after.rest = afterLine file.rest := by
  have hrest := file.myreadline_rest
  rw [myreadline_eq hne, if_pos hfits.length_lt] at hrest
  obtain ⟨⟨numBytes, line, after⟩, hcall, heq⟩ := Option.map_eq_some_iff.mp hrest
  obtain ⟨rfl, hline⟩ := Prod.mk.inj heq
  obtain ⟨rfl, hafter⟩ := Prod.mk.inj hline
  exact ⟨after, hcall, hafter⟩

/-- One call for each line, and one more. -/
theorem readLines_eq {fuel : Nat} {file : InFile} (hfuel : file.rest.length < fuel)
    (hfits : ∀ line ∈ lines file.rest, Fits line) :
    readLines fuel file = some ((lines file.rest).map (· ++ [newline])) := by
  induction fuel generalizing file with
  | zero => omega
  | succ fuel ih =>
      rw [readLines]
      by_cases hne : file.rest = []
      · obtain ⟨line, after, hcall⟩ := myreadline_of_nil hne
        rw [hcall, hne]
        rfl
      · rw [lines_eq_cons hne] at hfits ⊢
        obtain ⟨hfirst, hmore⟩ := List.forall_mem_cons.mp hfits
        obtain ⟨after, hcall, hafter⟩ := myreadline_of_fits hne hfirst
        have hshorter := afterLine_length_lt hne
        rw [← hafter] at hmore hshorter
        rw [hcall, Option.bind_some]
        dsimp only
        rw [if_pos Nat.one_pos, hfirst.getString, Option.bind_some, ih (by omega) hmore, hafter]
        rfl

end InFile

/-! ## The text of the lines -/

theorem unlines_lines_cons (c : UInt8) (text : Bytes) :
    unlines (lines (c :: text)) =
      c :: if text = [] ∧ c ≠ newline then [newline] else unlines (lines text) := by
  by_cases hc : c = newline
  · rw [if_neg fun h => h.2 hc, lines, if_pos hc, hc]
    rfl
  · rw [lines, if_neg hc]
    cases hlines : lines text with
    | nil =>
        rw [if_pos ⟨lines_eq_nil.mp hlines, hc⟩]
        rfl
    | cons line rest =>
        have hne := (lines_cons_cases hlines).1
        rw [if_neg fun h => hne h.1]
        rfl

/-- The text of the lines of a text is the text, with a newline at its end. -/
theorem unlines_lines (text : Bytes) :
    unlines (lines text) =
      if text ≠ [] ∧ text.getLast? ≠ some newline then text ++ [newline] else text := by
  induction text with
  | nil => rfl
  | cons c text ih =>
      rw [unlines_lines_cons]
      cases text with
      | nil =>
          by_cases hc : c = newline
          · simp [hc, lines, unlines]
          · simp [hc]
      | cons d text =>
          rw [if_neg fun h => List.cons_ne_nil _ _ h.1, ih, List.getLast?_cons_cons]
          simp only [ne_eq, List.cons_ne_nil, not_false_eq_true, true_and, List.cons_append]
          split <;> rfl

/-- Calls of `myreadline` until one returns 0 yield the file line by line, each with its
newline, and add one at the end of a file that is not empty and does not end in one. -/
theorem myreadline_loses_nothing (stream : Bytes) (hnul : (0 : UInt8) ∉ stream)
    (hlen : ∀ line ∈ lines stream, line.length ≤ 1022) (oneBit : UInt8) :
    ∃ strings,
      (∀ fuel, stream.length < fuel → InFile.readLines fuel ⟨stream, oneBit⟩ = some strings) ∧
      (∀ s ∈ strings, ∃ line, s = line ++ [newline] ∧ newline ∉ line) ∧
      strings.flatten =
        if stream ≠ [] ∧ stream.getLast? ≠ some newline then stream ++ [newline] else stream := by
  have hfits : ∀ line ∈ lines stream, Fits line :=
    fun line hline => ⟨nulFree_of_mem_lines hnul line hline, hlen line hline⟩
  refine ⟨(lines stream).map (· ++ [newline]), ?_, ?_, ?_⟩
  · intro fuel hfuel
    exact InFile.readLines_eq hfuel hfits
  · intro s hs
    obtain ⟨line, hline, rfl⟩ := List.mem_map.mp hs
    exact ⟨line, rfl, newline_notMem_of_mem_lines line hline⟩
  · rw [← unlines_lines, unlines, List.flatMap_def]

/-- An empty line, and a last line without a newline. -/
theorem myreadline_loses_nothing_twoLines :
    ∃ strings, (∀ fuel, 2 < fuel → InFile.readLines fuel ⟨[10, 97], 0⟩ = some strings) ∧
      (∀ s ∈ strings, ∃ line, s = line ++ [newline] ∧ newline ∉ line) ∧
      strings.flatten = [10, 97, 10] :=
  myreadline_loses_nothing [10, 97] (by decide) (by decide) 0

end OsCourse.Uniq
