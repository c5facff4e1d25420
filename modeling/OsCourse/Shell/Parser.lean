import OsCourse.Lib.Cursor
import OsCourse.Shell.Syntax

/-! # The recursive descent parser

`gettoken` and `peek` move a cursor `ps` over the bytes of a C string; the
parser routines pass that cursor on. Reading at `es` reads the terminator.
Every loop of the source runs with an explicit iteration bound, and running
out of it is an outcome of its own, distinct from every exit of the source.
-/

namespace OsCourse.Shell

/-- `whitespace[]`: blank, `\t`, `\r`, `\n`, `\v`. -/
def whitespace : Text := [32, 9, 13, 10, 11]

/-- `symbols[]`: `<`, `|`, `>`. -/
def symbols : Text := [60, 124, 62]

/-- `strchr(str, c) != 0`; the terminator of `str` is found too. -/
def strchr (str : Text) (c : UInt8) : Bool := c == 0 || str.contains c

/-- The codes returned by `gettoken`: `0`, `'|'`, `'<'`, `'>'` and `'a'`. -/
inductive TokenCode
  | eof
  | bar
  | less
  | greater
  | word
  deriving DecidableEq, Repr

/-- The results of `gettoken`: its return value, `*q`, `*eq` and the new `*ps`. -/
structure Lexeme where
  code : TokenCode
  q : Nat
  eq : Nat
  next : Nat
  deriving DecidableEq, Repr

/-- The messages of the parser's `exit(-1)` branches. -/
inductive ParseError
  | missingFile
  | syntaxError
  | tooManyArgs
  | leftovers (rest : Text)
  deriving DecidableEq, Repr

/-- How a parser routine can fail to return. `argvFault` is a write outside
`argv`; `outOfFuel` says that the iteration bound was too small. -/
inductive Halt
  | exit (error : ParseError)
  | argvFault
  | outOfFuel
  deriving DecidableEq, Repr

section Cursor

variable (buf : Text)

/-- The byte under a cursor. -/
def deref (s : Nat) : UInt8 := buf.getD s 0

/-- `while(s < es && strchr(whitespace, *s)) s++`. -/
def skipBlanks (s : Nat) : Nat := Cursor.scan (buf.getD · 0) buf.length (strchr whitespace) s

/-- `while(s < es && !strchr(whitespace, *s) && !strchr(symbols, *s)) s++`. -/
def skipWord (s : Nat) : Nat :=
  Cursor.scan (buf.getD · 0) buf.length (fun c => !strchr whitespace c && !strchr symbols c) s

def gettoken (ps : Nat) : Lexeme :=
  let s := skipBlanks buf ps
  let finish (ret : TokenCode) (eq : Nat) : Lexeme := ⟨ret, s, eq, skipBlanks buf eq⟩
  if deref buf s = 0 then finish .eof s
  else if deref buf s = 124 then finish .bar (s + 1)
  else if deref buf s = 60 then finish .less (s + 1)
  else if deref buf s = 62 then finish .greater (s + 1)
  else finish .word (skipWord buf s)

/-- The answer of `peek` and the cursor it leaves behind. -/
def peek (ps : Nat) (toks : Text) : Bool × Nat :=
  let s := skipBlanks buf ps
  (deref buf s != 0 && strchr toks (deref buf s), s)

/-- The bytes from `s` up to `es`. -/
def mkcopy (s es : Nat) : Text := (buf.drop s).take (es - s)

/-- The loop of `parseredirs`. -/
def parseredirsLoop : Nat → Cmd → Nat → Except Halt (Cmd × Nat)
  | 0, _, _ => .error .outOfFuel
  | fuel + 1, cmd, ps =>
      let (more, ps) := peek buf ps [60, 62]
      if more then
        let tok := gettoken buf ps
        let name := gettoken buf tok.next
        if name.code ≠ .word then .error (.exit .missingFile)
        else
          match tok.code with
          | .less =>
              parseredirsLoop fuel (redircmd cmd (mkcopy buf name.q name.eq) .input) name.next
          | .greater =>
              parseredirsLoop fuel (redircmd cmd (mkcopy buf name.q name.eq) .output) name.next
          | _ => parseredirsLoop fuel cmd name.next
      else .ok (cmd, ps)

def parseredirs (cmd : Cmd) (ps : Nat) : Except Halt (Cmd × Nat) :=
  parseredirsLoop buf (buf.length + 1) cmd ps

/-- `cmd->argv[i] = arg`, where `cmd` points to the `execcmd` at the bottom of
the redirections wrapped around it so far. No pipe is ever on the way down. -/
def Cmd.setArgv (i : Nat) (arg : Option Text) : Cmd → Except Halt Cmd
  | .exec argv => if h : i < maxArgs then .ok (.exec (argv.set i arg h)) else .error .argvFault
  | .redir type cmd file mode fd => do
      let cmd ← cmd.setArgv i arg
      return .redir type cmd file mode fd
  | .pipe left right => .ok (.pipe left right)

/-- The loop of `parseexec`, from the loop test on. -/
def parseexecLoop : Nat → Nat → Cmd → Nat → Except Halt (Cmd × Nat)
  | 0, _, _, _ => .error .outOfFuel
  | fuel + 1, argc, ret, ps => do
      let (bar, ps) := peek buf ps [124]
      if bar then
        let ret ← ret.setArgv argc none
        return (ret, ps)
      let tok := gettoken buf ps
      if tok.code = .eof then
        let ret ← ret.setArgv argc none
        return (ret, tok.next)
      if tok.code ≠ .word then throw (.exit .syntaxError)
      let ret ← ret.setArgv argc (some (mkcopy buf tok.q tok.eq))
      if argc + 1 ≥ maxArgs then throw (.exit .tooManyArgs)
      let (ret, ps) ← parseredirs buf ret tok.next
      parseexecLoop fuel (argc + 1) ret ps

def parseexec (ps : Nat) : Except Halt (Cmd × Nat) := do
  let (ret, ps) ← parseredirs buf execcmd ps
  parseexecLoop buf (buf.length + 1) 0 ret ps

/-- `parsepipe`; its recursion is the only one of the source. -/
def parsepipeRec : Nat → Nat → Except Halt (Cmd × Nat)
  | 0, _ => .error .outOfFuel
  | fuel + 1, ps => do
      let (cmd, ps) ← parseexec buf ps
      let (bar, ps) := peek buf ps [124]
      if bar then
        let tok := gettoken buf ps
        let (right, ps) ← parsepipeRec fuel tok.next
        return (pipecmd cmd right, ps)
      return (cmd, ps)

def parsepipe (ps : Nat) : Except Halt (Cmd × Nat) := parsepipeRec buf (buf.length + 1) ps

def parseline (ps : Nat) : Except Halt (Cmd × Nat) := parsepipe buf ps

end Cursor

/-- `parsecmd`: the end of the input is the terminator of the string. -/
def parsecmd (s : CString) : Except Halt Cmd := do
  let (cmd, ps) ← parseline s.1 0
  let (_, ps) := peek s.1 ps []
  if ps ≠ s.1.length then throw (.exit (.leftovers (s.1.drop ps)))
  return cmd

end OsCourse.Shell
