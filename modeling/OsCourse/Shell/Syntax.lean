import Mathlib.Data.List.Basic

/-! # Command trees of the shell

The trees built by `execcmd`, `redircmd` and `pipecmd`. An `execcmd` has a
fixed array of `MAXARGS` argument slots, all NULL after its allocation; a
`redircmd` carries the flags and the descriptor its constructor derives from
the direction. Allocation always succeeds.
-/

namespace OsCourse.Shell

/-- `MAXARGS`. -/
def maxArgs : Nat := 10

/-- The bytes of a C string, without the terminator. -/
abbrev Text := List UInt8

/-- A C string: the terminator is the first NUL byte. -/
abbrev CString := {s : Text // (0 : UInt8) ∉ s}

/-- The type of a `redircmd`: `'<'` or `'>'`. -/
inductive Direction
  | input
  | output
  deriving DecidableEq, Repr

/-- The access mode of an `open` call. -/
inductive Access
  | rdonly
  | wronly
  deriving DecidableEq, Repr

/-- The flag word of an `open` call. -/
structure OpenFlags where
  access : Access
  creat : Bool
  trunc : Bool
  deriving DecidableEq, Repr

/-- `argv` of an `execcmd`; a NULL slot is `none`. -/
abbrev Argv := Vector (Option Text) maxArgs

/-- `struct cmd` with its three layouts, told apart by the `type` field. -/
inductive Cmd
  | exec (argv : Argv)
  | redir (type : Direction) (cmd : Cmd) (file : Text) (mode : OpenFlags) (fd : Nat)
  | pipe (left right : Cmd)
  deriving DecidableEq

/-- `execcmd`: a fresh command whose argument slots are cleared by `memset`. -/
def execcmd : Cmd := .exec (Vector.replicate maxArgs none)

/-- The `mode` field set by `redircmd`. -/
def Direction.mode : Direction → OpenFlags
  | .input => ⟨.rdonly, false, false⟩
  | .output => ⟨.wronly, true, true⟩

/-- The `fd` field set by `redircmd`. -/
def Direction.fd : Direction → Nat
  | .input => 0
  | .output => 1

def redircmd (subcmd : Cmd) (file : Text) (type : Direction) : Cmd :=
  .redir type subcmd file type.mode type.fd

def pipecmd (left right : Cmd) : Cmd := .pipe left right

/-- The argument array holding `words` from slot 0 on and NULL after them. -/
def argvOf (words : List Text) : Argv := Vector.ofFn fun i => words[i.val]?

theorem argvOf_nil : argvOf [] = Vector.replicate maxArgs none := by
  ext i hi
  simp [argvOf]

/-- Writing the next free slot appends a word. -/
theorem argvOf_set_some (words : List Text) (word : Text) (hlen : words.length < maxArgs) :
    (argvOf words).set words.length (some word) hlen = argvOf (words ++ [word]) := by
  apply Vector.ext
  intro i hi
  rw [Vector.getElem_set]
  split
  next heq =>
    subst heq
    simp [argvOf]
  next hne =>
    simp only [argvOf, Vector.getElem_ofFn]
    rcases Nat.lt_or_gt_of_ne hne with hgt | hlt
    · rw [List.getElem?_eq_none (by omega), List.getElem?_eq_none (by simp; omega)]
    · rw [List.getElem?_append_left hlt]

/-- Terminating the argument list writes a slot that is still NULL. -/
theorem argvOf_set_none (words : List Text) (hlen : words.length < maxArgs) :
    (argvOf words).set words.length none hlen = argvOf words := by
  apply Vector.ext
  intro i hi
  rw [Vector.getElem_set]
  split
  next heq =>
    subst heq
    simp [argvOf]
  next => rfl

end OsCourse.Shell
