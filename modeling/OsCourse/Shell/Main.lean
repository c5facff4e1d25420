import OsCourse.Lib.CBuffer
import OsCourse.Shell.Syntax

/-! # The command loop

`getcmd` reads at most 99 bytes of a line into a buffer that it has cleared.
`main` hands each line to `parsecmd` in a child process; a line that starts with
`cd ` it executes itself, after chopping the last byte of the buffer. The children have
the standard input of `main`, and a program that reads it, or the `exit` of one that has
it in a buffer, moves its offset.
-/

namespace OsCourse.Shell

open CBuffer

/-- `buf` of `main`. -/
abbrev CmdBuffer := Buffer 100

def newline : UInt8 := 10

/-- The bytes up to the next newline, at most `room` of them, and the bytes after
them. -/
def takeLine : Nat → Text → Text × Text
  | 0, input => ([], input)
  | _ + 1, [] => ([], [])
  | room + 1, c :: input =>
      if c = newline then ([c], input)
      else
        let (line, rest) := takeLine room input
        (c :: line, rest)

/-- `fgets`: at the end of the input the buffer is left as it is. -/
def fgets {n : Nat} (buf : Buffer n) (input : Text) : Option (Buffer n × Text) :=
  let (line, rest) := takeLine (n - 1) input
  if line = [] then some (buf, rest)
  else (storeAll buf 0 (line ++ [0])).map fun buf => (buf, rest)

/-- `getcmd`: its result, the buffer and the input left. -/
def getcmd (input : Text) : Option (Int × CmdBuffer × Text) :=
  (fgets (zeros : CmdBuffer) input).map fun (buf, rest) =>
    (if buf[0] = 0 then -1 else 0, buf, rest)

/-- What `main` does with a line. -/
inductive LineAction
  | chdir (path : Text)
  | parsecmd (line : Text)
  deriving DecidableEq, Repr

/-- `buf[0] == 'c' && buf[1] == 'd' && buf[2] == ' '`. -/
def isCd (buf : CmdBuffer) : Bool := buf[0] == 99 && buf[1] == 100 && buf[2] == 32

/-- `buf[strlen(buf)-1] = 0`. -/
def chop (buf : CmdBuffer) : Option CmdBuffer :=
  (getString buf).bind fun s => store buf (s.length - 1) 0

section Loop

variable (forks : Nat → Bool) (stdin : Nat → Text → Text)

/-- The loop of `main`, for as many calls of `getcmd` as there is fuel. Call number `n`
finds what the other processes have made of the input, and `fork` number `k` succeeds or
fails. The result are the actions and the input left. -/
def mainLoop : Nat → Nat → Nat → Text → Option (List LineAction × Text)
  | 0, _, _, _ => none
  | fuel + 1, n, k, input =>
      (getcmd (stdin n input)).bind fun (status, buf, rest) =>
        if status < 0 then some ([], rest)
        else if isCd buf then
          (chop buf).bind fun buf => (stringOf (buf.toList.drop 3)).bind fun path =>
            (mainLoop fuel (n + 1) k rest).map fun (actions, rest) =>
              (.chdir path :: actions, rest)
        else if forks k then
          (getString buf).bind fun line =>
            (mainLoop fuel (n + 1) (k + 1) rest).map fun (actions, rest) =>
              (.parsecmd line :: actions, rest)
        else mainLoop fuel (n + 1) (k + 1) rest

/-- `main` ends after these actions, with this input left. -/
def main (input : Text) (actions : List LineAction) (rest : Text) : Prop :=
  ∃ fuel, mainLoop forks stdin fuel 0 0 input = some (actions, rest)

/-- Only the reads of `main` move the offset of its input. -/
def OwnInput : Prop := ∀ n input, stdin n input = input

variable {forks stdin}

theorem mainLoop_mono {fuel n k : Nat} {input : Text} {r : List LineAction × Text}
    (h : mainLoop forks stdin fuel n k input = some r) (more : Nat) :
    mainLoop forks stdin (fuel + more) n k input = some r := by
  induction fuel generalizing n k input r with
  | zero => cases h
  | succ fuel ih =>
      rw [mainLoop] at h
      rw [Nat.succ_add, mainLoop]
      obtain ⟨⟨status, buf, rest⟩, hread, h⟩ := Option.bind_eq_some_iff.mp h
      rw [hread, Option.bind_some]
      dsimp only at h ⊢
      split at h
      next hend => rwa [if_pos hend]
      next hend =>
        rw [if_neg hend]
        split at h
        next hcd =>
          obtain ⟨chopped, hchop, h⟩ := Option.bind_eq_some_iff.mp h
          obtain ⟨path, hpath, h⟩ := Option.bind_eq_some_iff.mp h
          obtain ⟨last, hlast, rfl⟩ := Option.map_eq_some_iff.mp h
          rw [if_pos hcd, hchop, Option.bind_some, hpath, Option.bind_some, ih hlast,
            Option.map_some]
        next hcd =>
          rw [if_neg hcd]
          split at h
          next hfork =>
            obtain ⟨line, hline, h⟩ := Option.bind_eq_some_iff.mp h
            obtain ⟨last, hlast, rfl⟩ := Option.map_eq_some_iff.mp h
            rw [if_pos hfork, hline, Option.bind_some, ih hlast, Option.map_some]
          next hfork => rw [if_neg hfork, ih h]

/-- More fuel makes no difference. -/
theorem main.unique {input rest rest' : Text} {actions actions' : List LineAction}
    (h : main forks stdin input actions rest) (h' : main forks stdin input actions' rest') :
    actions = actions' ∧ rest = rest' := by
  obtain ⟨fuel, hfuel⟩ := h
  obtain ⟨fuel', hfuel'⟩ := h'
  have hsame := (mainLoop_mono hfuel fuel').symm.trans (Nat.add_comm fuel fuel' ▸
    mainLoop_mono hfuel' fuel)
  exact Prod.mk.inj (Option.some.inj hsame)

end Loop

/-! ## Lines -/

/-- The lines of a text, each with its newline. A last line without one counts. -/
def rawLines : Text → List Text
  | [] => []
  | c :: text =>
      if c = newline then [c] :: rawLines text
      else
        match rawLines text with
        | [] => [[c]]
        | line :: rest => (c :: line) :: rest

/-- The prefix `cd ` of a line. -/
def cd : Text := [99, 100, 32]

def withoutNewline (text : Text) : Text :=
  if text.getLast? = some newline then text.dropLast else text

/-- The action a line asks for. -/
def lineAction (line : Text) : LineAction :=
  if cd <+: line then .chdir (withoutNewline (line.drop 3)) else .parsecmd line

theorem takeLine_append (room : Nat) (input : Text) :
    (takeLine room input).1 ++ (takeLine room input).2 = input := by
  fun_induction takeLine room input with
  | case1 input => rfl
  | case2 => rfl
  | case3 room input => rfl
  | case4 room c input hc line rest htake ih =>
      rw [htake] at ih
      rw [List.cons_append, ih]

theorem nulFree_takeLine {input : Text} (h : (0 : UInt8) ∉ input) (room : Nat) :
    (0 : UInt8) ∉ (takeLine room input).1 ∧ (0 : UInt8) ∉ (takeLine room input).2 := by
  rw [← takeLine_append room input, List.mem_append] at h
  exact not_or.mp h

theorem length_takeLine_le (room : Nat) (input : Text) : (takeLine room input).1.length ≤ room := by
  fun_induction takeLine room input with
  | case1 input => exact Nat.zero_le _
  | case2 => exact Nat.zero_le _
  | case3 room input => exact Nat.succ_le_succ (Nat.zero_le _)
  | case4 room c input hc line rest htake ih =>
      rw [htake] at ih
      exact Nat.succ_le_succ ih

theorem takeLine_eq_nil {room : Nat} {input : Text} (h : (takeLine (room + 1) input).1 = []) :
    input = [] := by
  cases input with
  | nil => rfl
  | cons c input =>
      rw [takeLine] at h
      split at h <;> cases h

theorem rawLines_eq_nil {text : Text} : rawLines text = [] ↔ text = [] := by
  cases text with
  | nil => exact ⟨fun _ => rfl, fun _ => rfl⟩
  | cons c text =>
      constructor
      · intro h
        rw [rawLines] at h
        split at h
        · cases h
        · split at h <;> cases h
      · intro h
        cases h

theorem ne_nil_of_mem_rawLines {text : Text} : ∀ line ∈ rawLines text, line ≠ [] := by
  induction text with
  | nil => simp [rawLines]
  | cons c text ih =>
      rw [rawLines]
      split
      · simpa using ih
      · split
        · simp
        next first others hsome =>
          rw [hsome] at ih
          simpa using fun line hline => ih line (List.mem_cons_of_mem _ hline)

/-- A line that fits is read as a whole. -/
theorem takeLine_eq_line {room : Nat} {input line : Text} {rest : List Text}
    (hlines : rawLines input = line :: rest) (hfits : line.length ≤ room) :
    ∃ after, takeLine room input = (line, after) ∧ rawLines after = rest := by
  induction input generalizing room line rest with
  | nil => cases hlines
  | cons c input ih =>
      have hline := ne_nil_of_mem_rawLines line (hlines ▸ List.mem_cons_self)
      have hpos := List.length_pos_of_ne_nil hline
      obtain ⟨room, rfl⟩ : ∃ k, room = k + 1 := ⟨room - 1, by omega⟩
      rw [rawLines] at hlines
      split at hlines
      next hc =>
        obtain ⟨rfl, rfl⟩ := List.cons.inj hlines
        exact ⟨input, by rw [takeLine, if_pos hc], rfl⟩
      next hc =>
        split at hlines
        next hnone =>
          obtain ⟨rfl, rfl⟩ := List.cons.inj hlines
          rw [rawLines_eq_nil] at hnone
          subst hnone
          refine ⟨[], ?_, rfl⟩
          rw [takeLine, if_neg hc]
          cases room <;> rfl
        next first others hsome =>
          obtain ⟨rfl, rfl⟩ := List.cons.inj hlines
          obtain ⟨after, htake, hafter⟩ := ih hsome (Nat.le_of_succ_le_succ hfits)
          exact ⟨after, by rw [takeLine, if_neg hc, htake], hafter⟩

/-! ## One turn of the loop -/

section Turn

variable {s : Text} (hnul : (0 : UInt8) ∉ s) (hlen : s.length ≤ 99)

theorem pad_getElem (s : Text) (i : Nat) (h : i < 100) : (pad s : CmdBuffer)[i] = s.getD i 0 := by
  simp [pad]

theorem isCd_pad (s : Text) : isCd (pad s) = decide (cd <+: s) := by
  rw [isCd, pad_getElem, pad_getElem, pad_getElem, cd]
  match s with
  | [] => rfl
  | [a] => simp [List.cons_prefix_cons]
  | [a, b] => simp [List.cons_prefix_cons]
  | a :: b :: c :: rest =>
      simp only [List.getD_cons_zero, List.getD_cons_succ, List.cons_prefix_cons, List.nil_prefix,
        and_true, Bool.decide_and, Bool.and_assoc, eq_comm]
      rfl

include hnul hlen

theorem getString_line : getString (pad s : CmdBuffer) = some s :=
  getString_pad hnul (by omega)

theorem chop_pad (hne : s ≠ []) : chop (pad s) = some (pad s.dropLast) := by
  have hsplit := List.dropLast_append_getLast hne
  have hlast : s.dropLast.length = s.length - 1 := List.length_dropLast
  have hstore := @store_pad_zero 100 s.dropLast (s.getLast hne) (by omega)
  rw [hsplit, hlast] at hstore
  rw [chop, getString_line hnul hlen, Option.bind_some, hstore]

/-- The path behind `cd `, up to the terminator. -/
theorem path_pad (hcd : cd <+: s) :
    stringOf ((pad s.dropLast : CmdBuffer).toList.drop 3) = some (s.dropLast.drop 3) := by
  have hlast : s.dropLast.length = s.length - 1 := List.length_dropLast
  have hthree : 3 ≤ s.length := hcd.length_le
  obtain ⟨k, hk⟩ : ∃ k, 100 - s.dropLast.length - (3 - s.dropLast.length) = k + 1 :=
    ⟨100 - s.dropLast.length - (3 - s.dropLast.length) - 1, by omega⟩
  rw [toList_pad (by omega), List.drop_append, List.drop_replicate, hk, List.replicate_succ]
  apply stringOf_append_zero
  exact fun hzero => hnul ((List.dropLast_sublist s).subset (List.mem_of_mem_drop hzero))

end Turn

theorem getcmd_eq {input : Text} (hnul : (0 : UInt8) ∉ input) :
    getcmd input = some (if input = [] then -1 else 0, pad (takeLine 99 input).1,
      (takeLine 99 input).2) := by
  have hline := (nulFree_takeLine hnul 99).1
  have hlen := length_takeLine_le 99 input
  rw [getcmd, fgets]
  dsimp only
  split
  next hnil =>
    have hinput := takeLine_eq_nil hnil
    subst hinput
    rw [Option.map_some, if_pos rfl, zeros_eq_pad]
    rfl
  next hsome =>
    have hinput : input ≠ [] := by
      rintro rfl
      exact hsome rfl
    have hstore := @storeAll_pad 100 [] ((takeLine 99 input).1 ++ [0]) (by simp; omega)
    rw [List.nil_append, List.length_nil, pad_append_zero, ← zeros_eq_pad] at hstore
    have hfirst : (pad (takeLine 99 input).1 : CmdBuffer)[0] ≠ 0 := by
      obtain ⟨c, rest, hcons⟩ := List.exists_cons_of_ne_nil hsome
      rw [pad_getElem, hcons, List.getD_cons_zero]
      rintro rfl
      exact hline (hcons ▸ List.mem_cons_self)
    rw [hstore, Option.map_some, Option.map_some, if_neg hfirst, if_neg hinput]

/-- What `main` does with the lines in its buffer. -/
def performed (forks : Nat → Bool) : Nat → List Text → List LineAction
  | _, [] => []
  | k, line :: rest =>
      if cd <+: line then .chdir (line.dropLast.drop 3) :: performed forks k rest
      else if forks k then .parsecmd line :: performed forks (k + 1) rest
      else performed forks (k + 1) rest

section Lines

variable (forks : Nat → Bool) {stdin : Nat → Text → Text} (hown : OwnInput stdin) {input : Text}
  (hnul : (0 : UInt8) ∉ input)
include hown hnul

/-- One turn: the bytes that were read, then the rest of the input. -/
theorem mainLoop_succ (fuel n k : Nat) (hne : input ≠ []) :
    mainLoop forks stdin (fuel + 1) n k input =
      (mainLoop forks stdin fuel (n + 1) (if cd <+: (takeLine 99 input).1 then k else k + 1)
        (takeLine 99 input).2).map fun (actions, rest) =>
          (performed forks k [(takeLine 99 input).1] ++ actions, rest) := by
  have hline := (nulFree_takeLine hnul 99).1
  have hlen := length_takeLine_le 99 input
  have hsome : (takeLine 99 input).1 ≠ [] := fun hnil => hne (takeLine_eq_nil hnil)
  rw [mainLoop, hown, getcmd_eq hnul, Option.bind_some]
  simp only [if_neg hne, Int.lt_irrefl, if_false, isCd_pad, decide_eq_true_eq, performed]
  split
  next hcd =>
    rw [chop_pad hline hlen hsome, Option.bind_some, path_pad hline hlen hcd, Option.bind_some]
    rfl
  next hcd =>
    split
    next => rw [getString_line hline hlen, Option.bind_some]; rfl
    next =>
      cases mainLoop forks stdin fuel (n + 1) (k + 1) (takeLine 99 input).2 <;> rfl

omit hnul in
theorem mainLoop_nil (fuel n k : Nat) :
    mainLoop forks stdin (fuel + 1) n k [] = some ([], []) := by
  rw [mainLoop, hown, getcmd_eq List.not_mem_nil, Option.bind_some]
  rfl

omit hown hnul in
theorem length_takeLine_lt (hne : input ≠ []) : (takeLine 99 input).2.length < input.length := by
  have hsome : (takeLine 99 input).1 ≠ [] := fun hnil => hne (takeLine_eq_nil hnil)
  have hpos := List.length_pos_of_ne_nil hsome
  have hsum := congrArg List.length (takeLine_append 99 input)
  rw [List.length_append] at hsum
  omega

omit hown hnul in
theorem performed_cons (k : Nat) (line : Text) (rest : List Text) :
    performed forks k (line :: rest) =
      performed forks k [line] ++ performed forks (if cd <+: line then k else k + 1) rest := by
  simp only [performed]
  split
  · rfl
  · split <;> rfl

/-- Lines that fit are taken one at a time, up to the end of the input. -/
theorem mainLoop_lines {fuel n k : Nat} (hfuel : input.length < fuel)
    (hfit : ∀ line ∈ rawLines input, line.length ≤ 99) :
    mainLoop forks stdin fuel n k input = some (performed forks k (rawLines input), []) := by
  induction fuel generalizing input n k with
  | zero => omega
  | succ fuel ih =>
      cases hlines : rawLines input with
      | nil =>
          rw [rawLines_eq_nil] at hlines
          subst hlines
          exact mainLoop_nil forks hown fuel n k
      | cons line rest =>
          have hne : input ≠ [] := fun hnil => by simp [hnil, rawLines] at hlines
          rw [hlines] at hfit
          obtain ⟨hline, hrest⟩ := List.forall_mem_cons.mp hfit
          obtain ⟨after, htake, hafter⟩ := takeLine_eq_line hlines hline
          have hnext := (nulFree_takeLine hnul 99).2
          have hlt := length_takeLine_lt hne
          rw [htake] at hnext hlt
          rw [mainLoop_succ forks hown hnul fuel n k hne, htake,
            ih hnext (by omega) (hafter ▸ hrest), hafter, Option.map_some,
            performed_cons forks k line rest]

/-- The bytes an action was read from. -/
def LineAction.Short : LineAction → Prop
  | .chdir path => path.length ≤ 95
  | .parsecmd line => line.length ≤ 99

omit hown hnul in
theorem short_of_mem_performed {k : Nat} {line : Text} (hlen : line.length ≤ 99) :
    ∀ action ∈ performed forks k [line], action.Short := by
  intro action haction
  simp only [performed] at haction
  split at haction
  · obtain rfl := List.mem_singleton.mp haction
    rw [LineAction.Short, List.length_drop, List.length_dropLast]
    omega
  · split at haction
    · obtain rfl := List.mem_singleton.mp haction
      exact hlen
    · cases haction

theorem mainLoop_short {fuel n k : Nat} (hfuel : input.length < fuel) :
    ∃ actions, mainLoop forks stdin fuel n k input = some (actions, []) ∧
      ∀ action ∈ actions, action.Short := by
  induction fuel generalizing input n k with
  | zero => omega
  | succ fuel ih =>
      by_cases hne : input = []
      · subst hne
        exact ⟨[], mainLoop_nil forks hown fuel n k, by simp⟩
      · have hlt := length_takeLine_lt hne
        obtain ⟨actions, hrest, hshort⟩ := ih (nulFree_takeLine hnul 99).2 (by omega)
        refine ⟨_, by rw [mainLoop_succ forks hown hnul fuel n k hne, hrest, Option.map_some], ?_⟩
        intro action haction
        rcases List.mem_append.mp haction with hfirst | hlater
        · exact short_of_mem_performed forks (length_takeLine_le 99 input) action hfirst
        · exact hshort action hlater

end Lines

/-! ## One action for each line -/

/-- `main` can do what every line asks for: no line is longer than the buffer holds,
no line has its last letter chopped, and every fork for a command succeeds. -/
structure LinesFit (forks : Nat → Bool) (lines : List Text) : Prop where
  short : ∀ line ∈ lines, line.length ≤ 99
  chopped : ∀ line ∈ lines, cd <+: line → line.getLast? = some newline ∨ line = cd
  forked : ∀ k < (lines.filter (¬ cd <+: ·)).length, forks k = true

/-- A line that is too long asks for an action that does not fit. -/
theorem length_le_of_short {line : Text} (h : (lineAction line).Short) : line.length ≤ 99 := by
  rw [lineAction] at h
  split at h
  next hcd =>
    have hthree : 3 ≤ line.length := hcd.length_le
    have hdrop : (line.drop 3).length = line.length - 3 := List.length_drop
    rw [LineAction.Short, withoutNewline] at h
    split at h
    · rw [List.length_dropLast] at h
      omega
    · omega
  next => exact h

theorem chdir_dropLast_iff {line : Text} (hcd : cd <+: line) :
    line.dropLast.drop 3 = withoutNewline (line.drop 3) ↔
      line.getLast? = some newline ∨ line = cd := by
  obtain ⟨path, rfl⟩ := hcd
  by_cases hpath : path = []
  · subst hpath
    exact ⟨fun _ => Or.inr rfl, fun _ => rfl⟩
  · have hdrop : (cd ++ path).drop 3 = path := rfl
    have hchop : (cd ++ path).dropLast.drop 3 = path.dropLast := by
      rw [List.dropLast_append_of_ne_nil hpath]
      rfl
    have hne : cd ++ path ≠ cd := fun heq => hpath (List.append_right_eq_self.mp heq)
    rw [hdrop, hchop, List.getLast?_append_of_ne_nil cd hpath, withoutNewline, or_iff_left hne]
    split
    next hlast => exact ⟨fun _ => hlast, fun _ => rfl⟩
    next hlast =>
      refine ⟨fun heq => ?_, fun h => absurd h hlast⟩
      have hlength := congrArg List.length heq
      have hpos := List.length_pos_of_ne_nil hpath
      rw [List.length_dropLast] at hlength
      omega

theorem length_performed_le (forks : Nat → Bool) (k : Nat) (lines : List Text) :
    (performed forks k lines).length ≤ lines.length := by
  induction lines generalizing k with
  | nil => exact Nat.le_refl _
  | cons line lines ih =>
      rw [performed]
      split
      · exact Nat.succ_le_succ (ih k)
      · split
        · exact Nat.succ_le_succ (ih (k + 1))
        · exact Nat.le_succ_of_le (ih (k + 1))

theorem performed_eq_iff (forks : Nat → Bool) (k : Nat) (lines : List Text) :
    performed forks k lines = lines.map lineAction ↔
      (∀ line ∈ lines, cd <+: line → line.getLast? = some newline ∨ line = cd) ∧
        ∀ j < (lines.filter (¬ cd <+: ·)).length, forks (k + j) = true := by
  induction lines generalizing k with
  | nil => simp [performed]
  | cons line lines ih =>
      rw [performed, List.map_cons, lineAction, List.forall_mem_cons]
      split
      next hcd =>
        rw [List.cons.injEq, LineAction.chdir.injEq, chdir_dropLast_iff hcd, ih]
        simp [hcd, and_assoc]
      next hcd =>
        split
        next hfork =>
          have hcount : ((line :: lines).filter (¬ cd <+: ·)).length =
              (lines.filter (¬ cd <+: ·)).length + 1 := by
            simp [hcd]
          have hshift : ∀ j, k + (j + 1) = k + 1 + j := fun j => by omega
          rw [List.cons.injEq, ih, hcount, Nat.forall_lt_succ_left]
          constructor
          · rintro ⟨-, hchopped, hforks⟩
            refine ⟨⟨fun h => absurd h hcd, hchopped⟩, hfork, fun j hj => ?_⟩
            rw [hshift]
            exact hforks j hj
          · rintro ⟨⟨-, hchopped⟩, -, hforks⟩
            refine ⟨rfl, hchopped, fun j hj => ?_⟩
            rw [← hshift]
            exact hforks j hj
        next hfork =>
          constructor
          · intro heq
            have hlength := congrArg List.length heq
            have hle := length_performed_le forks (k + 1) lines
            rw [List.length_cons, List.length_map] at hlength
            omega
          · rintro ⟨-, hforks⟩
            have hfirst := hforks 0 (by simp [hcd])
            exact absurd hfirst hfork

/-- `main` performs one action for each line of its input and stops at the end, exactly
when the lines fit, if nobody else moves the offset of the input. -/
theorem main_lines_iff (forks : Nat → Bool) {stdin : Nat → Text → Text} (hown : OwnInput stdin)
    (input : CString) :
    main forks stdin input.1 ((rawLines input.1).map lineAction) [] ↔
      LinesFit forks (rawLines input.1) := by
  constructor
  · intro h
    have hshort : ∀ line ∈ rawLines input.1, line.length ≤ 99 := by
      obtain ⟨actions, hactions, hfit⟩ :=
        mainLoop_short forks hown input.2 (Nat.lt_succ_self _) (n := 0) (k := 0)
      obtain ⟨rfl, -⟩ := h.unique ⟨_, hactions⟩
      intro line hline
      exact length_le_of_short (hfit _ (List.mem_map_of_mem hline))
    have hlines := mainLoop_lines forks hown input.2 (Nat.lt_succ_self _) hshort (n := 0) (k := 0)
    obtain ⟨heq, -⟩ := h.unique ⟨_, hlines⟩
    obtain ⟨hchopped, hforked⟩ := (performed_eq_iff forks 0 _).mp heq.symm
    exact ⟨hshort, hchopped, by simpa using hforked⟩
  · intro h
    rw [← (performed_eq_iff forks 0 _).mpr ⟨h.chopped, by simpa using h.forked⟩]
    exact ⟨_, mainLoop_lines forks hown input.2 (Nat.lt_succ_self _) h.short⟩

/-- Nobody else reads. -/
theorem ownInput_self : OwnInput fun _ input => input := fun _ _ => rfl

/-- `a` and `cd b`, each with its newline. -/
def fittingLines : CString := ⟨[97, 10, 99, 100, 32, 98, 10], by decide⟩

theorem main_lines_iff_fittingLines :
    main (fun _ => true) (fun _ input => input) fittingLines.1
      [.parsecmd [97, 10], .chdir [98]] [] := by
  refine (main_lines_iff (fun _ => true) ownInput_self fittingLines).mpr ⟨?_, ?_, fun _ _ => rfl⟩
  · decide
  · decide

/-- A last line `cd x` without a newline loses its letter. -/
theorem main_chops_letter :
    main (fun _ => true) (fun _ input => input) [99, 100, 32, 120] [.chdir []] [] ∧
      (rawLines [99, 100, 32, 120]).map lineAction = [.chdir [120]] ∧
      ¬ main (fun _ => true) (fun _ input => input) [99, 100, 32, 120] [.chdir [120]] [] := by
  have hchops : main (fun _ => true) (fun _ input => input) [99, 100, 32, 120] [.chdir []] [] := by
    refine ⟨5, ?_⟩
    rw [mainLoop_lines _ ownInput_self (by decide) (by decide) (by decide)]
    decide
  refine ⟨hchops, by decide, fun h => ?_⟩
  have hactions := (h.unique hchops).1
  revert hactions
  decide

end OsCourse.Shell
