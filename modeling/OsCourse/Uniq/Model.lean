import OsCourse.Lib.CBuffer
import OsCourse.Lib.MachineInt

/-! # The program `uniq`

`uniq` reads its input byte by byte into two buffers of 1024 bytes and compares
and prints them as C strings. A function has no result when it reads or writes
outside of a buffer. What `string_compare` answers is a parameter: it may
depend on the number of the call and on the two strings. The byte after
`one_bit` is 0, so `one_bit` is a newline exactly when its only byte is one.
-/

namespace OsCourse.Uniq

open CBuffer MachineInt

abbrev Bytes := List UInt8

/-- `last_line` and `this_line`. -/
abbrev LineBuffer := Buffer 1024

def newline : UInt8 := 10

/-- What `to_upper` makes of a byte. -/
def upper (c : UInt8) : UInt8 := if 97 ≤ c ∧ c ≤ 122 then c - 32 else c

/-- The loop of `myreadline`: the result of the last `read`, the final position,
the line and the input left. At the end of the input `one_bit` keeps its byte,
which makes no difference. -/
def myreadlineLoop (line : LineBuffer) (position : Nat) :
    Bytes → Option (Nat × Nat × LineBuffer × Bytes)
  | [] => (store line position newline).map fun line => (0, position, line, [])
  | c :: input =>
      if c = newline then (store line position newline).map fun line => (1, position, line, input)
      else (store line position c).bind fun line => myreadlineLoop line (position + 1) input

/-- `myreadline`: its result, the line and the input left. -/
def myreadline (input : Bytes) : Option (Nat × LineBuffer × Bytes) :=
  (myreadlineLoop zeros 0 input).map fun r =>
    (if r.1 = 0 ∧ r.2.1 = 0 then 0 else 1, r.2.2.1, r.2.2.2)

/-- The bytes of a text of ASCII characters. -/
def ascii (s : String) : Bytes := s.toList.map fun c => UInt8.ofNat c.toNat

/-- `printf` with `"%s"`. -/
def printfString (s : LineBuffer) : Option Bytes := getString s

/-- `printf` with `"%d %s"`. -/
def printfCount (d : Int) (s : LineBuffer) : Option Bytes :=
  (getString s).map fun s => ascii (toString d) ++ ascii " " ++ s

/-- The text up to the first newline. -/
def firstLine (input : Bytes) : Bytes := input.takeWhile (· != newline)

/-- The text after the first newline. -/
def afterLine (input : Bytes) : Bytes := (input.dropWhile (· != newline)).tail

/-- The buffer after reading a line. -/
def holding (line : Bytes) : LineBuffer := pad (line ++ [newline])

@[simp] theorem firstLine_nil : firstLine [] = [] := rfl
@[simp] theorem afterLine_nil : afterLine [] = [] := rfl

@[simp] theorem firstLine_newline (input : Bytes) : firstLine (newline :: input) = [] := by
  simp [firstLine]

@[simp] theorem afterLine_newline (input : Bytes) : afterLine (newline :: input) = input := by
  simp [afterLine]

theorem firstLine_cons {c : UInt8} (hc : c ≠ newline) (input : Bytes) :
    firstLine (c :: input) = c :: firstLine input := by
  simp [firstLine, hc]

theorem afterLine_cons {c : UInt8} (hc : c ≠ newline) (input : Bytes) :
    afterLine (c :: input) = afterLine input := by
  simp [afterLine, hc]

theorem myreadlineLoop_pad {s : Bytes} {input : Bytes} :
    myreadlineLoop (pad s) s.length input =
      if s.length + (firstLine input).length < 1024 then
        some (if newline ∈ input then 1 else 0, s.length + (firstLine input).length,
          pad (s ++ firstLine input ++ [newline]), afterLine input)
      else none := by
  induction input generalizing s with
  | nil =>
      rw [myreadlineLoop]
      split
      next hlt => simp [store_pad (show s.length < 1024 by simpa using hlt)]
      next hge => rw [store_eq_none _ (by simpa using hge), Option.map_none]
  | cons c input ih =>
      rw [myreadlineLoop]
      by_cases hc : c = newline
      · subst hc
        rw [if_pos rfl]
        split
        next hlt => simp [store_pad (show s.length < 1024 by simpa using hlt)]
        next hge => rw [store_eq_none _ (by simpa using hge), Option.map_none]
      · rw [if_neg hc, firstLine_cons hc, afterLine_cons hc, List.length_cons]
        by_cases hlt : s.length < 1024
        · have hnext := @ih (s ++ [c])
          rw [List.length_append, List.length_singleton] at hnext
          rw [store_pad hlt, Option.bind_some, hnext]
          have hmem : newline ∈ c :: input ↔ newline ∈ input := by simp [Ne.symm hc]
          have hlen : s.length + 1 + (firstLine input).length =
              s.length + ((firstLine input).length + 1) := by omega
          simp only [hmem, hlen, List.append_assoc, List.singleton_append]
        · rw [store_eq_none _ (by omega), Option.bind_none, if_neg (by omega)]

theorem myreadline_nil : myreadline [] = some (0, pad [newline], []) := by
  rw [myreadline, zeros_eq_pad]
  have hloop := @myreadlineLoop_pad [] []
  rw [List.length_nil] at hloop
  rw [hloop]
  simp

/-- `myreadline` takes one line of the input, if the line and a newline fit into
the buffer. -/
theorem myreadline_eq {input : Bytes} (h : input ≠ []) :
    myreadline input =
      if (firstLine input).length < 1024 then
        some (1, holding (firstLine input), afterLine input)
      else none := by
  rw [myreadline, zeros_eq_pad]
  have hloop := @myreadlineLoop_pad [] input
  rw [List.length_nil] at hloop
  rw [hloop, Nat.zero_add, List.nil_append]
  split
  next hlt =>
    have hsome : ¬((if newline ∈ input then 1 else 0) = 0 ∧ (firstLine input).length = 0) := by
      rintro ⟨hflag, hlength⟩
      obtain ⟨c, rest, rfl⟩ := List.exists_cons_of_ne_nil h
      by_cases hc : c = newline
      · simp [hc] at hflag
      · simp [firstLine_cons hc] at hlength
    rw [Option.map_some, if_neg hsome, holding]
  next => rfl

theorem afterLine_length_lt {input : Bytes} (h : input ≠ []) :
    (afterLine input).length < input.length := by
  have hdrop := (List.dropWhile_sublist (l := input) (· != newline)).length_le
  have hpos := List.length_pos_of_ne_nil h
  rw [afterLine, List.length_tail]
  omega

theorem myreadline_shorter {input rest : Bytes} {numBytes : Nat} {line : LineBuffer}
    (h : myreadline input = some (numBytes, line, rest)) (hpos : 0 < numBytes) :
    rest.length < input.length := by
  by_cases hinput : input = []
  · rw [hinput, myreadline_nil, Option.some.injEq, Prod.mk.injEq] at h
    omega
  · rw [myreadline_eq hinput] at h
    split at h
    · simp only [Option.some.injEq, Prod.mk.injEq] at h
      rw [← h.2.2]
      exact afterLine_length_lt hinput
    · cases h

/-- A loop that reads a line before every turn is over at the end of the input. -/
theorem readLoop_nil {α : Type} (turn : LineBuffer → Bytes → Option α) (final : Option α) :
    (match _hread : myreadline [] with
      | none => none
      | some (numBytes, thisLine, rest) =>
          if _hmore : 0 < numBytes then turn thisLine rest else final) = final := by
  split
  next hread =>
    rw [myreadline_nil] at hread
    cases hread
  next numBytes thisLine rest hread =>
    rw [myreadline_nil, Option.some.injEq, Prod.mk.injEq] at hread
    rw [dif_neg (by omega)]

/-- Otherwise it makes a turn with the first line, if that fits into the buffer. -/
theorem readLoop_eq {α : Type} {input : Bytes} (h : input ≠ [])
    (turn : LineBuffer → Bytes → Option α) (final : Option α) :
    (match _hread : myreadline input with
      | none => none
      | some (numBytes, thisLine, rest) =>
          if _hmore : 0 < numBytes then turn thisLine rest else final) =
      if (firstLine input).length < 1024 then
        turn (holding (firstLine input)) (afterLine input)
      else none := by
  split
  next hread =>
    rw [myreadline_eq h] at hread
    rw [if_neg]
    intro hlt
    rw [if_pos hlt] at hread
    cases hread
  next numBytes thisLine rest hread =>
    rw [myreadline_eq h] at hread
    split at hread
    next hlt =>
      simp only [Option.some.injEq, Prod.mk.injEq] at hread
      obtain ⟨rfl, rfl, rfl⟩ := hread
      rw [if_pos hlt, dif_pos Nat.one_pos]
    next => cases hread

section Modes

variable (stringCompare : Nat → Bytes → Bytes → Bool)

/-- The loop of `uniq_duplicate_mode`, `calls` being the number of comparisons
made before. -/
def uniqDuplicateMode (calls : Nat) (dupeFound : Bool) (lastLine : LineBuffer) (input : Bytes) :
    Option Bytes :=
  match _hread : myreadline input with
  | none => none
  | some (numBytes, thisLine, rest) =>
      if _hmore : 0 < numBytes then
        (getString lastLine).bind fun s => (getString thisLine).bind fun t =>
          if stringCompare calls s t && !dupeFound then
            (printfString lastLine).bind fun out =>
              (uniqDuplicateMode (calls + 1) true lastLine rest).map (out ++ ·)
          else
            (strcpy zeros thisLine).bind fun lastLine =>
              uniqDuplicateMode (calls + 1) false lastLine rest
      else some []
termination_by input.length
decreasing_by
  · exact myreadline_shorter _hread _hmore
  · exact myreadline_shorter _hread _hmore

/-- What `uniq_non_duplicate_mode` prints for a line. -/
def printLine (count : Bool) (dupeCount : Int) (line : LineBuffer) : Option Bytes :=
  if count then printfCount dupeCount line else printfString line

/-- The loop of `uniq_non_duplicate_mode` and the code after it. -/
def uniqNonDuplicateMode (count : Bool) (calls : Nat) (dupeCount : Int) (lastLine : LineBuffer)
    (input : Bytes) : Option Bytes :=
  match _hread : myreadline input with
  | none => none
  | some (numBytes, thisLine, rest) =>
      if _hmore : 0 < numBytes then
        (getString lastLine).bind fun s => (getString thisLine).bind fun t =>
          if stringCompare calls s t then
            uniqNonDuplicateMode count (calls + 1) (wrap (dupeCount + 1)) lastLine rest
          else
            (printLine count dupeCount lastLine).bind fun out =>
              (strcpy zeros thisLine).bind fun lastLine =>
                (uniqNonDuplicateMode count (calls + 1) 1 lastLine rest).map (out ++ ·)
      else printLine count dupeCount lastLine
termination_by input.length
decreasing_by
  · exact myreadline_shorter _hread _hmore
  · exact myreadline_shorter _hread _hmore

/-- `uniq`: what it prints for the given input. -/
def uniq (count duplicate : Bool) (input : Bytes) : Option Bytes :=
  (myreadline input).bind fun r =>
    if r.1 = 0 then some (ascii "error - file empty")
    else if duplicate then uniqDuplicateMode stringCompare 0 false r.2.1 r.2.2
    else uniqNonDuplicateMode stringCompare count 0 1 r.2.1 r.2.2

/-! ## One turn of the loops -/

variable {stringCompare}

theorem uniqDuplicateMode_nil (calls : Nat) (dupeFound : Bool) (lastLine : LineBuffer) :
    uniqDuplicateMode stringCompare calls dupeFound lastLine [] = some [] := by
  rw [uniqDuplicateMode, readLoop_nil]

theorem uniqNonDuplicateMode_nil (count : Bool) (calls : Nat) (dupeCount : Int)
    (lastLine : LineBuffer) :
    uniqNonDuplicateMode stringCompare count calls dupeCount lastLine [] =
      printLine count dupeCount lastLine := by
  rw [uniqNonDuplicateMode, readLoop_nil]

section Turn

variable {input : Bytes} (h : input ≠ [])
include h

theorem uniqDuplicateMode_eq (calls : Nat) (dupeFound : Bool) (lastLine : LineBuffer) :
    uniqDuplicateMode stringCompare calls dupeFound lastLine input =
      if (firstLine input).length < 1024 then
        (getString lastLine).bind fun s =>
          (getString (holding (firstLine input))).bind fun t =>
            if stringCompare calls s t && !dupeFound then
              (printfString lastLine).bind fun out =>
                (uniqDuplicateMode stringCompare (calls + 1) true lastLine
                  (afterLine input)).map (out ++ ·)
            else
              (strcpy zeros (holding (firstLine input))).bind fun lastLine =>
                uniqDuplicateMode stringCompare (calls + 1) false lastLine (afterLine input)
      else none := by
  rw [uniqDuplicateMode, readLoop_eq h]

theorem uniqNonDuplicateMode_eq (count : Bool) (calls : Nat) (dupeCount : Int)
    (lastLine : LineBuffer) :
    uniqNonDuplicateMode stringCompare count calls dupeCount lastLine input =
      if (firstLine input).length < 1024 then
        (getString lastLine).bind fun s =>
          (getString (holding (firstLine input))).bind fun t =>
            if stringCompare calls s t then
              uniqNonDuplicateMode stringCompare count (calls + 1) (wrap (dupeCount + 1)) lastLine
                (afterLine input)
            else
              (printLine count dupeCount lastLine).bind fun out =>
                (strcpy zeros (holding (firstLine input))).bind fun lastLine =>
                  (uniqNonDuplicateMode stringCompare count (calls + 1) 1 lastLine
                    (afterLine input)).map (out ++ ·)
      else none := by
  rw [uniqNonDuplicateMode, readLoop_eq h]

end Turn

end Modes

end OsCourse.Uniq
