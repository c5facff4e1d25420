import OsCourse.Uniq.Model

/-! # Lines of the input

Over an input whose lines fit into the buffers the two modes of `uniq` are
loops over the list of its lines; a line that does not fit makes them leave a
buffer.
-/

namespace OsCourse.Uniq

open CBuffer MachineInt

/-- The lines of a text. A last line without a newline counts. -/
def lines : Bytes → List Bytes
  | [] => []
  | c :: text =>
      if c = newline then [] :: lines text
      else
        match lines text with
        | [] => [[c]]
        | line :: rest => (c :: line) :: rest

theorem lines_eq_cons {text : Bytes} (h : text ≠ []) :
    lines text = firstLine text :: lines (afterLine text) := by
  induction text with
  | nil => exact absurd rfl h
  | cons c text ih =>
      by_cases hc : c = newline
      · subst hc
        rw [lines, if_pos rfl, firstLine_newline, afterLine_newline]
      · rw [lines, if_neg hc, firstLine_cons hc, afterLine_cons hc]
        cases text with
        | nil => rfl
        | cons d text => rw [ih (List.cons_ne_nil _ _)]

theorem lines_eq_nil {text : Bytes} : lines text = [] ↔ text = [] := by
  constructor
  · intro h
    by_contra hne
    rw [lines_eq_cons hne] at h
    cases h
  · rintro rfl
    rfl

/-- A nonempty list of lines is that of a nonempty text, split once. -/
theorem lines_cons_cases {text line : Bytes} {rest : List Bytes} (h : lines text = line :: rest) :
    text ≠ [] ∧ firstLine text = line ∧ lines (afterLine text) = rest := by
  have hne : text ≠ [] := by
    rintro rfl
    cases h
  rw [lines_eq_cons hne] at h
  obtain ⟨hfirst, hrest⟩ := List.cons.inj h
  exact ⟨hne, hfirst, hrest⟩

theorem nulFree_afterLine {text : Bytes} (h : (0 : UInt8) ∉ text) :
    (0 : UInt8) ∉ afterLine text :=
  fun hzero => h ((List.dropWhile_sublist _).subset (List.mem_of_mem_tail hzero))

theorem nulFree_of_mem_lines {text : Bytes} (h : (0 : UInt8) ∉ text) :
    ∀ line ∈ lines text, (0 : UInt8) ∉ line := by
  induction hlines : lines text generalizing text with
  | nil => simp
  | cons first rest ih =>
      obtain ⟨-, rfl, hrest⟩ := lines_cons_cases hlines
      intro line hline
      rcases List.mem_cons.mp hline with rfl | hline
      · exact fun hzero => h ((List.takeWhile_sublist _).subset hzero)
      · exact ih (nulFree_afterLine h) hrest line hline

/-- A line that can be held, compared and printed. -/
structure Fits (line : Bytes) : Prop where
  nulFree : (0 : UInt8) ∉ line
  length_le : line.length ≤ 1022

theorem Fits.length_lt {line : Bytes} (h : Fits line) : line.length < 1024 := by
  have hlen := h.length_le
  omega

theorem nulFree_newline {line : Bytes} (h : (0 : UInt8) ∉ line) :
    (0 : UInt8) ∉ line ++ [newline] := by
  simpa [newline] using h

theorem Fits.getString {line : Bytes} (h : Fits line) :
    getString (holding line) = some (line ++ [newline]) := by
  apply getString_pad (nulFree_newline h.nulFree)
  have hlen := h.length_le
  rw [List.length_append, List.length_singleton]
  omega

theorem Fits.strcpy {line : Bytes} (h : Fits line) :
    strcpy zeros (holding line) = some (holding line) := by
  apply strcpy_zeros (nulFree_newline h.nulFree)
  have hlen := h.length_le
  rw [List.length_append, List.length_singleton]
  omega

/-- A line of 1023 bytes leaves no room for the terminator. -/
theorem getString_holding_eq_none {line : Bytes} (hnul : (0 : UInt8) ∉ line)
    (hlen : line.length = 1023) : getString (holding line) = none := by
  apply getString_pad_eq_none (nulFree_newline hnul)
  rw [List.length_append, List.length_singleton, hlen]

/-- What is printed for a line, with its count. -/
def render (count : Bool) (dupeCount : Int) (line : Bytes) : Bytes :=
  (if count then ascii (toString dupeCount) ++ ascii " " else []) ++ (line ++ [newline])

theorem Fits.printLine {line : Bytes} (h : Fits line) (count : Bool) (dupeCount : Int) :
    printLine count dupeCount (holding line) = some (render count dupeCount line) := by
  cases count with
  | false => simp [Uniq.printLine, printfString, h.getString, render]
  | true => simp [Uniq.printLine, printfCount, h.getString, render]

section Loops

variable (stringCompare : Nat → Bytes → Bytes → Bool)

/-- The lines printed by `uniq_duplicate_mode`, after `last` and before `lines`. -/
def duplicates (calls : Nat) (dupeFound : Bool) (last : Bytes) : List Bytes → List Bytes
  | [] => []
  | line :: rest =>
      if stringCompare calls (last ++ [newline]) (line ++ [newline]) && !dupeFound then
        last :: duplicates (calls + 1) true last rest
      else duplicates (calls + 1) false line rest

/-- The lines printed by `uniq_non_duplicate_mode` and their counts. -/
def counted (calls : Nat) (dupeCount : Int) (last : Bytes) : List Bytes → List (Int × Bytes)
  | [] => [(dupeCount, last)]
  | line :: rest =>
      if stringCompare calls (last ++ [newline]) (line ++ [newline]) then
        counted (calls + 1) (wrap (dupeCount + 1)) last rest
      else (dupeCount, last) :: counted (calls + 1) 1 line rest

variable {stringCompare}

theorem uniqDuplicateMode_lines {last : Bytes} (hlast : Fits last) {input : Bytes}
    (hlines : ∀ line ∈ lines input, Fits line) (calls : Nat) (dupeFound : Bool) :
    uniqDuplicateMode stringCompare calls dupeFound (holding last) input =
      some ((duplicates stringCompare calls dupeFound last (lines input)).flatMap
        (· ++ [newline])) := by
  induction hrest : lines input generalizing input last calls dupeFound with
  | nil =>
      obtain rfl := lines_eq_nil.mp hrest
      rw [uniqDuplicateMode_nil]
      rfl
  | cons line rest ih =>
      obtain ⟨hne, rfl, hafter⟩ := lines_cons_cases hrest
      rw [hrest] at hlines
      have hline : Fits (firstLine input) := hlines _ List.mem_cons_self
      have hmore : ∀ line ∈ lines (afterLine input), Fits line :=
        fun line hmem => hlines line (List.mem_cons_of_mem _ (hafter ▸ hmem))
      rw [uniqDuplicateMode_eq hne, if_pos hline.length_lt, hlast.getString, Option.bind_some]
      rw [hline.getString, Option.bind_some, duplicates]
      split
      · rw [printfString, hlast.getString, Option.bind_some, ih hlast hmore _ _ hafter]
        rfl
      · rw [hline.strcpy, Option.bind_some, ih hline hmore _ _ hafter]

theorem uniqNonDuplicateMode_lines {last : Bytes} (hlast : Fits last) {input : Bytes}
    (hlines : ∀ line ∈ lines input, Fits line) (count : Bool) (calls : Nat) (dupeCount : Int) :
    uniqNonDuplicateMode stringCompare count calls dupeCount (holding last) input =
      some ((counted stringCompare calls dupeCount last (lines input)).flatMap
        fun out => render count out.1 out.2) := by
  induction hrest : lines input generalizing input last calls dupeCount with
  | nil =>
      obtain rfl := lines_eq_nil.mp hrest
      rw [uniqNonDuplicateMode_nil, hlast.printLine]
      simp [counted]
  | cons line rest ih =>
      obtain ⟨hne, rfl, hafter⟩ := lines_cons_cases hrest
      rw [hrest] at hlines
      have hline : Fits (firstLine input) := hlines _ List.mem_cons_self
      have hmore : ∀ line ∈ lines (afterLine input), Fits line :=
        fun line hmem => hlines line (List.mem_cons_of_mem _ (hafter ▸ hmem))
      rw [uniqNonDuplicateMode_eq hne, if_pos hline.length_lt, hlast.getString, Option.bind_some]
      rw [hline.getString, Option.bind_some, counted]
      split
      · exact ih hlast hmore _ _ hafter
      · rw [hlast.printLine, Option.bind_some, hline.strcpy, Option.bind_some,
          ih hline hmore _ _ hafter]
        rfl

/-- A line that does not fit makes the loop leave a buffer: at the latest where
the line is compared or printed. -/
theorem uniqNonDuplicateMode_overlong {last : Bytes} (hnul : (0 : UInt8) ∉ last)
    (hlen : last.length ≤ 1023) {input : Bytes} (hinput : (0 : UInt8) ∉ input)
    (hlong : last.length = 1023 ∨ ∃ line ∈ lines input, 1022 < line.length) (count : Bool)
    (calls : Nat) (dupeCount : Int) :
    uniqNonDuplicateMode stringCompare count calls dupeCount (holding last) input = none := by
  induction hrest : lines input generalizing input last calls dupeCount with
  | nil =>
      obtain rfl := lines_eq_nil.mp hrest
      have hfull : last.length = 1023 := by simpa [hrest] using hlong
      have hnone := getString_holding_eq_none hnul hfull
      rw [uniqNonDuplicateMode_nil]
      cases count with
      | false => simp [printLine, printfString, hnone]
      | true => simp [printLine, printfCount, hnone]
  | cons line rest ih =>
      obtain ⟨hne, rfl, hafter⟩ := lines_cons_cases hrest
      have hlines := nulFree_of_mem_lines hinput
      rw [hrest] at hlong hlines
      have hlineNul : (0 : UInt8) ∉ firstLine input := hlines _ List.mem_cons_self
      have hafterNul := nulFree_afterLine hinput
      rw [uniqNonDuplicateMode_eq hne]
      by_cases hlt : (firstLine input).length < 1024
      · rw [if_pos hlt]
        by_cases hfull : last.length = 1023
        · rw [getString_holding_eq_none hnul hfull, Option.bind_none]
        · have hlast : Fits last := ⟨hnul, by omega⟩
          rw [hlast.getString, Option.bind_some]
          by_cases hlineFull : (firstLine input).length = 1023
          · rw [getString_holding_eq_none hlineNul hlineFull, Option.bind_none]
          · have hline : Fits (firstLine input) := ⟨hlineNul, by omega⟩
            have hmore : ∃ line ∈ lines (afterLine input), 1022 < line.length := by
              obtain ⟨long, hmem, hlength⟩ := hlong.resolve_left hfull
              rcases List.mem_cons.mp hmem with rfl | hmem
              · omega
              · exact ⟨long, hafter ▸ hmem, hlength⟩
            rw [hline.getString, Option.bind_some]
            split
            · exact ih hnul hlen hafterNul (.inr hmore) _ _ hafter
            · rw [hlast.printLine, Option.bind_some, hline.strcpy, Option.bind_some,
                ih hlineNul (by omega) hafterNul (.inr hmore) _ _ hafter, Option.map_none]
      · rw [if_neg hlt]

end Loops

/-! ## The whole program -/

section Program

variable (stringCompare : Nat → Bytes → Bytes → Bool) (count : Bool) {file : Bytes}
  (hne : file ≠ [])
include hne

theorem uniq_eq (duplicate : Bool) :
    uniq stringCompare count duplicate file =
      if (firstLine file).length < 1024 then
        if duplicate then
          uniqDuplicateMode stringCompare 0 false (holding (firstLine file)) (afterLine file)
        else
          uniqNonDuplicateMode stringCompare count 0 1 (holding (firstLine file)) (afterLine file)
      else none := by
  rw [uniq, myreadline_eq hne]
  split <;> rfl

theorem uniq_duplicate_lines (hlines : ∀ line ∈ lines file, Fits line) :
    uniq stringCompare count true file =
      some ((duplicates stringCompare 0 false (firstLine file) (lines (afterLine file))).flatMap
        (· ++ [newline])) := by
  rw [lines_eq_cons hne] at hlines
  have hfirst := hlines _ List.mem_cons_self
  rw [uniq_eq stringCompare count hne, if_pos hfirst.length_lt, if_pos rfl]
  exact uniqDuplicateMode_lines hfirst
    (fun line hline => hlines line (List.mem_cons_of_mem _ hline)) 0 false

theorem uniq_nonDuplicate_lines (hlines : ∀ line ∈ lines file, Fits line) :
    uniq stringCompare count false file =
      some ((counted stringCompare 0 1 (firstLine file) (lines (afterLine file))).flatMap
        fun out => render count out.1 out.2) := by
  rw [lines_eq_cons hne] at hlines
  have hfirst := hlines _ List.mem_cons_self
  rw [uniq_eq stringCompare count hne, if_pos hfirst.length_lt, if_neg Bool.false_ne_true]
  exact uniqNonDuplicateMode_lines hfirst
    (fun line hline => hlines line (List.mem_cons_of_mem _ hline)) count 0 1

end Program

/-- `uniq` without `-d` stays inside its buffers exactly when every line has at
most 1022 bytes, whatever the comparisons answer; with `-d` it does when every
line has. -/
theorem uniq_inBounds (stringCompare : Nat → Bytes → Bytes → Bool) (count : Bool) (file : Bytes)
    (hne : file ≠ []) (hnul : (0 : UInt8) ∉ file) :
    ((uniq stringCompare count false file).isSome ↔ ∀ line ∈ lines file, line.length ≤ 1022) ∧
      ((∀ line ∈ lines file, line.length ≤ 1022) →
        (uniq stringCompare count true file).isSome) := by
  have hnulLines := nulFree_of_mem_lines hnul
  have hfits : (∀ line ∈ lines file, line.length ≤ 1022) → ∀ line ∈ lines file, Fits line :=
    fun hlen line hline => ⟨hnulLines line hline, hlen line hline⟩
  refine ⟨⟨?_, ?_⟩, ?_⟩
  · intro hsome
    by_contra hlong
    push Not at hlong
    rw [uniq_eq stringCompare count hne] at hsome
    split at hsome
    next hlt =>
      rw [lines_eq_cons hne] at hlong hnulLines
      have hbad : (firstLine file).length = 1023 ∨
          ∃ line ∈ lines (afterLine file), 1022 < line.length := by
        obtain ⟨long, hmem, hlength⟩ := hlong
        rcases List.mem_cons.mp hmem with rfl | hmem
        · exact .inl (by omega)
        · exact .inr ⟨long, hmem, hlength⟩
      rw [if_neg Bool.false_ne_true, uniqNonDuplicateMode_overlong
        (hnulLines _ List.mem_cons_self) (by omega) (nulFree_afterLine hnul) hbad] at hsome
      cases hsome
    next => cases hsome
  · intro hlen
    rw [uniq_nonDuplicate_lines stringCompare count hne (hfits hlen)]
    rfl
  · intro hlen
    rw [uniq_duplicate_lines stringCompare count hne (hfits hlen)]
    rfl

/-- Two lines, the second without a newline. -/
theorem uniq_inBounds_twoLines :
    ((uniq (fun _ s t => s = t) true false [97, 10, 98]).isSome ↔
        ∀ line ∈ lines [97, 10, 98], line.length ≤ 1022) ∧
      ((∀ line ∈ lines [97, 10, 98], line.length ≤ 1022) →
        (uniq (fun _ s t => s = t) true true [97, 10, 98]).isSome) :=
  uniq_inBounds (fun _ s t => s = t) true [97, 10, 98] (by decide) (by decide)

end OsCourse.Uniq
