import OsCourse.Lib.EventLog
import OsCourse.Shell.ParserCorrect

/-! # The cursor of the parser

The routines of the parser once more, with a log of what they do to the cursor and
to `argv`. Without the log they are the parser. In every run, also in one that
exits, the cursor only moves forward and stays inside the input.
-/

namespace OsCourse.Shell

open EventLog

/-- A call of `gettoken` or `peek` with the cursor before it and what it leaves
behind, or a store into slot `i` of an `argv`. -/
inductive ParserEvent
  | gettoken (ps : Nat) (tok : Lexeme)
  | peek (ps next : Nat)
  | argv (i : Nat)
  deriving DecidableEq, Repr

/-- A parser routine with a log. -/
abbrev Traced := LogsOr ParserEvent Halt

namespace Traced

variable (buf : Text)

def gettoken (ps : Nat) : Traced Lexeme := do
  logOr (.gettoken ps (Shell.gettoken buf ps))
  return Shell.gettoken buf ps

def peek (ps : Nat) (toks : Text) : Traced (Bool × Nat) := do
  logOr (.peek ps (Shell.peek buf ps toks).2)
  return Shell.peek buf ps toks

/-- `cmd->argv[i] = arg`. -/
def setArgv (i : Nat) (arg : Option Text) (cmd : Cmd) : Traced Cmd := do
  logOr (.argv i)
  ofExcept (cmd.setArgv i arg)

/-- The loop of `parseredirs`. -/
def parseredirsLoop : Nat → Cmd → Nat → Traced (Cmd × Nat)
  | 0, _, _ => throw .outOfFuel
  | fuel + 1, cmd, ps => do
      let (more, ps) ← peek buf ps [60, 62]
      if more then
        let tok ← gettoken buf ps
        let name ← gettoken buf tok.next
        if name.code ≠ .word then throw (.exit .missingFile)
        else
          match tok.code with
          | .less =>
              parseredirsLoop fuel (redircmd cmd (mkcopy buf name.q name.eq) .input) name.next
          | .greater =>
              parseredirsLoop fuel (redircmd cmd (mkcopy buf name.q name.eq) .output) name.next
          | _ => parseredirsLoop fuel cmd name.next
      else return (cmd, ps)

def parseredirs (cmd : Cmd) (ps : Nat) : Traced (Cmd × Nat) :=
  parseredirsLoop buf (buf.length + 1) cmd ps

/-- The loop of `parseexec`, from the loop test on. -/
def parseexecLoop : Nat → Nat → Cmd → Nat → Traced (Cmd × Nat)
  | 0, _, _, _ => throw .outOfFuel
  | fuel + 1, argc, ret, ps => do
      let (bar, ps) ← peek buf ps [124]
      if bar then
        let ret ← setArgv argc none ret
        return (ret, ps)
      else
        let tok ← gettoken buf ps
        if tok.code = .eof then
          let ret ← setArgv argc none ret
          return (ret, tok.next)
        else if tok.code ≠ .word then throw (.exit .syntaxError)
        else
          let ret ← setArgv argc (some (mkcopy buf tok.q tok.eq)) ret
          if argc + 1 ≥ maxArgs then throw (.exit .tooManyArgs)
          else
            let (ret, ps) ← parseredirs buf ret tok.next
            parseexecLoop fuel (argc + 1) ret ps

def parseexec (ps : Nat) : Traced (Cmd × Nat) := do
  let (ret, ps) ← parseredirs buf execcmd ps
  parseexecLoop buf (buf.length + 1) 0 ret ps

def parsepipeRec : Nat → Nat → Traced (Cmd × Nat)
  | 0, _ => throw .outOfFuel
  | fuel + 1, ps => do
      let (cmd, ps) ← parseexec buf ps
      let (bar, ps) ← peek buf ps [124]
      if bar then
        let tok ← gettoken buf ps
        let (right, ps) ← parsepipeRec fuel tok.next
        return (pipecmd cmd right, ps)
      else return (cmd, ps)

def parsepipe (ps : Nat) : Traced (Cmd × Nat) := parsepipeRec buf (buf.length + 1) ps

def parseline (ps : Nat) : Traced (Cmd × Nat) := parsepipe buf ps

def parsecmd (s : CString) : Traced Cmd := do
  let (cmd, ps) ← parseline s.1 0
  let (_, ps) ← peek s.1 ps []
  if ps ≠ s.1.length then throw (.exit (.leftovers (s.1.drop ps)))
  else return cmd

/-! ## The log left out -/

theorem outcome_gettoken (ps : Nat) : outcome (gettoken buf ps) = .ok (Shell.gettoken buf ps) := rfl

theorem outcome_peek (ps : Nat) (toks : Text) :
    outcome (peek buf ps toks) = .ok (Shell.peek buf ps toks) := rfl

theorem outcome_setArgv (i : Nat) (arg : Option Text) (cmd : Cmd) :
    outcome (setArgv i arg cmd) = cmd.setArgv i arg := by
  rw [setArgv, outcome_bind, outcome_logOr, outcome_ofExcept]
  rfl

theorem outcome_parseredirsLoop (fuel : Nat) (cmd : Cmd) (ps : Nat) :
    outcome (parseredirsLoop buf fuel cmd ps) = Shell.parseredirsLoop buf fuel cmd ps := by
  induction fuel generalizing cmd ps with
  | zero => rfl
  | succ fuel ih =>
      rw [parseredirsLoop, Shell.parseredirsLoop]
      simp only [outcome_bind, outcome_peek, outcome_gettoken, outcome_ite, outcome_throw,
        outcome_pure]
      simp only [bind, Except.bind]
      congr 2
      cases (Shell.gettoken buf (Shell.peek buf ps [60, 62]).2).code with
      | less => exact ih _ _
      | greater => exact ih _ _
      | _ => exact ih _ _

theorem outcome_parseredirs (cmd : Cmd) (ps : Nat) :
    outcome (parseredirs buf cmd ps) = Shell.parseredirs buf cmd ps :=
  outcome_parseredirsLoop buf _ cmd ps

theorem outcome_parseexecLoop (fuel argc : Nat) (ret : Cmd) (ps : Nat) :
    outcome (parseexecLoop buf fuel argc ret ps) = Shell.parseexecLoop buf fuel argc ret ps := by
  induction fuel generalizing argc ret ps with
  | zero => rfl
  | succ fuel ih =>
      rw [parseexecLoop, Shell.parseexecLoop]
      simp only [outcome_bind, outcome_peek, outcome_gettoken, outcome_ite, outcome_throw,
        outcome_pure, outcome_setArgv, outcome_parseredirs, ih]
      rfl

theorem outcome_parseexec (ps : Nat) : outcome (parseexec buf ps) = Shell.parseexec buf ps := by
  rw [parseexec, Shell.parseexec]
  simp only [outcome_bind, outcome_parseredirs, outcome_parseexecLoop]

theorem outcome_parsepipeRec (fuel ps : Nat) :
    outcome (parsepipeRec buf fuel ps) = Shell.parsepipeRec buf fuel ps := by
  induction fuel generalizing ps with
  | zero => rfl
  | succ fuel ih =>
      rw [parsepipeRec, Shell.parsepipeRec]
      simp only [outcome_bind, outcome_parseexec, outcome_peek, outcome_gettoken, outcome_ite,
        outcome_pure, ih]
      rfl

/-- The log apart, this is the parser. -/
theorem outcome_parsecmd (s : CString) : outcome (parsecmd s) = Shell.parsecmd s := by
  rw [parsecmd, Shell.parsecmd]
  simp only [outcome_bind, parseline, parsepipe, outcome_parsepipeRec, outcome_peek, outcome_ite,
    outcome_throw, outcome_pure]
  rfl

end Traced

/-! ## The cursor -/

/-- What an event does to the cursor, in an input that ends at `es`: it stays or moves
forward, not beyond `es`, and forward when there was a token. -/
inductive Moves (es : Nat) : Nat → ParserEvent → Nat → Prop
  | gettoken {ps : Nat} {tok : Lexeme} (hq : ps ≤ tok.q) (heq : tok.q ≤ tok.eq)
      (hnext : tok.eq ≤ tok.next) (hes : tok.next ≤ es)
      (hadvance : tok.code ≠ .eof → ps < tok.next) :
      Moves es ps (.gettoken ps tok) tok.next
  | peek {ps next : Nat} (hnext : ps ≤ next) (hes : next ≤ es) : Moves es ps (.peek ps next) next
  | argv {ps i : Nat} (hi : i < maxArgs) : Moves es ps (.argv i) ps

section Bounds

variable {buf : Text}

theorem le_skipBlanks (ps : Nat) : ps ≤ skipBlanks buf ps := by
  rw [skipBlanks, Cursor.scan_eq]
  exact Nat.le_add_right _ _

theorem skipBlanks_le {ps : Nat} (h : ps ≤ buf.length) : skipBlanks buf ps ≤ buf.length :=
  Cursor.scan_le buf 0 _ ps h

/-- All branches of `gettoken` end by skipping blanks. -/
theorem moves_gettoken {ps s eq : Nat} {code : TokenCode} (hs : ps ≤ s) (heq : s ≤ eq)
    (hes : eq ≤ buf.length) (hadvance : code ≠ .eof → s < eq) :
    Moves buf.length ps (.gettoken ps ⟨code, s, eq, skipBlanks buf eq⟩) (skipBlanks buf eq) := by
  have hnext := @le_skipBlanks buf eq
  refine .gettoken hs heq hnext (skipBlanks_le hes) fun hcode => ?_
  have hlt := hadvance hcode
  show ps < skipBlanks buf eq
  omega

variable (hnul : (0 : UInt8) ∉ buf)
include hnul

theorem gettoken_moves {ps : Nat} (h : ps ≤ buf.length) :
    Moves buf.length ps (.gettoken ps (gettoken buf ps)) (gettoken buf ps).next := by
  have hs := @le_skipBlanks buf ps
  have hes := skipBlanks_le h
  unfold gettoken
  dsimp only
  split
  next => exact moves_gettoken hs (Nat.le_refl _) hes (fun hcode => absurd rfl hcode)
  next hzero =>
    -- the byte is no terminator, so the end is not reached
    rcases drop_skipBlanks_cases hnul ps with hdrop | ⟨c, cs, hdrop, hc, hblank⟩
    · rw [deref_eq_headD, hdrop] at hzero
      exact absurd rfl hzero
    have hderef : deref buf (skipBlanks buf ps) = c := by
      rw [deref_eq_headD, hdrop]
      rfl
    have hlt : skipBlanks buf ps < buf.length := by
      have hlength := congrArg List.length hdrop
      rw [List.length_drop, List.length_cons] at hlength
      omega
    rw [hderef]
    have hone := Nat.le_succ (skipBlanks buf ps)
    split
    next => exact moves_gettoken hs hone hlt fun _ => Nat.lt_succ_self _
    next hbar =>
      split
      next => exact moves_gettoken hs hone hlt fun _ => Nat.lt_succ_self _
      next hless =>
        split
        next => exact moves_gettoken hs hone hlt fun _ => Nat.lt_succ_self _
        next hgreater =>
          have hsymbol : symbol c = none := by simp [symbol, hbar, hless, hgreater]
          have hword : isWordByte c = true := by
            rw [isWordByte, hsymbol, hblank]
            rfl
          obtain ⟨hend, hcopy⟩ := skipWord_spec hnul hdrop hword
          have hadvance : skipBlanks buf ps < skipWord buf (skipBlanks buf ps) := by
            have hlength := congrArg List.length hcopy
            rw [mkcopy, List.length_take, List.length_cons] at hlength
            omega
          exact moves_gettoken hs (Nat.le_of_lt hadvance) hend.le fun _ => hadvance

omit hnul in
theorem peek_moves {ps : Nat} (h : ps ≤ buf.length) (toks : Text) :
    Moves buf.length ps (.peek ps (peek buf ps toks).2) (peek buf ps toks).2 :=
  .peek (le_skipBlanks ps) (skipBlanks_le h)

end Bounds

namespace Traced

variable {buf : Text} (hnul : (0 : UInt8) ∉ buf)

/-- A routine hands over its cursor where the log leaves it. -/
def HandsOver (es : Nat) (r : Except Halt (Cmd × Nat)) (last : Nat) : Prop :=
  last ≤ es ∧ ∀ cmd ps, r = .ok (cmd, ps) → ps = last

theorem handsOver_error {es last : Nat} {e : Halt} (h : last ≤ es) :
    HandsOver es (.error e) last :=
  ⟨h, fun _ _ heq => by cases heq⟩

theorem handsOver_ok {es last : Nat} {cmd : Cmd} (h : last ≤ es) :
    HandsOver es (.ok (cmd, last)) last := by
  refine ⟨h, fun _ _ heq => ?_⟩
  cases heq
  rfl

section Ensures

variable {α : Type} {post : Except Halt α → Nat → Prop}

theorem peek_bind {ps : Nat} (h : ps ≤ buf.length) (toks : Text) {f : Bool × Nat → Traced α}
    (hf : (Shell.peek buf ps toks).2 ≤ buf.length →
      Ensures (Moves buf.length) (Shell.peek buf ps toks).2 (f (Shell.peek buf ps toks)).run post) :
    Ensures (Moves buf.length) ps (peek buf ps toks >>= f).run post := by
  obtain ⟨last, hpath, hpost⟩ := hf (skipBlanks_le h)
  exact ⟨last, .cons (peek_moves h toks) hpath, hpost⟩

include hnul in
theorem gettoken_bind {ps : Nat} (h : ps ≤ buf.length) {f : Lexeme → Traced α}
    (hf : (Shell.gettoken buf ps).next ≤ buf.length →
      Ensures (Moves buf.length) (Shell.gettoken buf ps).next
        (f (Shell.gettoken buf ps)).run post) :
    Ensures (Moves buf.length) ps (gettoken buf ps >>= f).run post := by
  have hmoves := gettoken_moves hnul h
  have hes : (Shell.gettoken buf ps).next ≤ buf.length := by
    cases hmoves with
    | gettoken hq heq hnext hes hadvance => exact hes
  obtain ⟨last, hpath, hpost⟩ := hf hes
  exact ⟨last, .cons hmoves hpath, hpost⟩

theorem setArgv_bind {es ps i : Nat} (hi : i < maxArgs) {arg : Option Text} {cmd : Cmd}
    {f : Cmd → Traced α} (hf : ∀ cmd, Ensures (Moves es) ps (f cmd).run post)
    (hstop : ∀ e, post (.error e) ps) :
    Ensures (Moves es) ps (setArgv i arg cmd >>= f).run post := by
  have hset : Ensures (Moves es) ps (setArgv i arg cmd).run fun _ last => last = ps := by
    refine .logOr_bind (.argv hi) ?_
    cases cmd.setArgv i arg with
    | ok cmd => exact .pure rfl
    | error e => exact .pure rfl
  refine hset.bindOr ?_ ?_
  · rintro cmd last rfl
    exact hf cmd
  · rintro e last rfl
    exact hstop e

/-- Go on where a routine hands over. -/
theorem handsOver_bind {ps : Nat} {x : Traced (Cmd × Nat)} {f : Cmd × Nat → Traced α}
    (hx : Ensures (Moves buf.length) ps x.run (HandsOver buf.length))
    (hf : ∀ cmd ps, ps ≤ buf.length → Ensures (Moves buf.length) ps (f (cmd, ps)).run post)
    (hstop : ∀ e last, last ≤ buf.length → post (.error e) last) :
    Ensures (Moves buf.length) ps (x >>= f).run post := by
  refine hx.bindOr ?_ ?_
  · rintro ⟨cmd, ps⟩ last ⟨hes, hcursor⟩
    obtain rfl := hcursor cmd ps rfl
    exact hf cmd ps hes
  · exact fun e last hover => hstop e last hover.1

end Ensures

section Routines

include hnul

theorem parseredirsLoop_ensures (fuel : Nat) (cmd : Cmd) {ps : Nat} (h : ps ≤ buf.length) :
    Ensures (Moves buf.length) ps (parseredirsLoop buf fuel cmd ps).run
      (HandsOver buf.length) := by
  induction fuel generalizing cmd ps with
  | zero => exact .pure (handsOver_error h)
  | succ fuel ih =>
      rw [parseredirsLoop]
      refine peek_bind h _ fun hpeek => ?_
      dsimp only
      split
      next =>
        refine gettoken_bind hnul hpeek fun htok => gettoken_bind hnul htok fun hname => ?_
        split
        next => exact .pure (handsOver_error hname)
        next =>
          split
          next => exact ih _ hname
          next => exact ih _ hname
          next => exact ih _ hname
      next => exact .pure (handsOver_ok hpeek)

theorem parseredirs_ensures (cmd : Cmd) {ps : Nat} (h : ps ≤ buf.length) :
    Ensures (Moves buf.length) ps (parseredirs buf cmd ps).run (HandsOver buf.length) :=
  parseredirsLoop_ensures hnul _ cmd h

theorem parseexecLoop_ensures (fuel : Nat) {argc : Nat} (hargc : argc < maxArgs) (ret : Cmd)
    {ps : Nat} (h : ps ≤ buf.length) :
    Ensures (Moves buf.length) ps (parseexecLoop buf fuel argc ret ps).run
      (HandsOver buf.length) := by
  induction fuel generalizing argc ret ps with
  | zero => exact .pure (handsOver_error h)
  | succ fuel ih =>
      rw [parseexecLoop]
      refine peek_bind h _ fun hpeek => ?_
      dsimp only
      split
      next =>
        exact setArgv_bind hargc (fun _ => .pure (handsOver_ok hpeek))
          fun _ => handsOver_error hpeek
      next =>
        refine gettoken_bind hnul hpeek fun htok => ?_
        split
        next =>
          exact setArgv_bind hargc (fun _ => .pure (handsOver_ok htok))
            fun _ => handsOver_error htok
        next =>
          split
          next => exact .pure (handsOver_error htok)
          next =>
            refine setArgv_bind hargc (fun ret => ?_) fun _ => handsOver_error htok
            split
            next => exact .pure (handsOver_error htok)
            next hmax =>
              -- the next slot is inside `argv` because of the check
              refine handsOver_bind (parseredirs_ensures hnul ret htok) ?_
                fun e last => handsOver_error
              exact fun ret ps hps => ih (Nat.lt_of_not_le hmax) ret hps

theorem parseexec_ensures {ps : Nat} (h : ps ≤ buf.length) :
    Ensures (Moves buf.length) ps (parseexec buf ps).run (HandsOver buf.length) := by
  refine handsOver_bind (parseredirs_ensures hnul execcmd h) ?_ fun e last => handsOver_error
  exact fun ret ps hps => parseexecLoop_ensures hnul _ (by decide) ret hps

theorem parsepipeRec_ensures (fuel : Nat) {ps : Nat} (h : ps ≤ buf.length) :
    Ensures (Moves buf.length) ps (parsepipeRec buf fuel ps).run (HandsOver buf.length) := by
  induction fuel generalizing ps with
  | zero => exact .pure (handsOver_error h)
  | succ fuel ih =>
      rw [parsepipeRec]
      refine handsOver_bind (parseexec_ensures hnul h) ?_ fun e last => handsOver_error
      intro cmd ps hps
      refine peek_bind hps _ fun hpeek => ?_
      dsimp only
      split
      next =>
        refine gettoken_bind hnul hpeek fun htok => ?_
        refine handsOver_bind (ih htok) ?_ fun e last => handsOver_error
        exact fun right ps hps => .pure (handsOver_ok hps)
      next => exact .pure (handsOver_ok hpeek)

end Routines

/-- The log of every run leads the cursor from the start of the input on. -/
theorem parsecmd_path (s : CString) :
    ∃ last, Path (Moves s.1.length) 0 (events (parsecmd s).run) last := by
  have hrun : Ensures (Moves s.1.length) 0 (parsecmd s).run fun _ _ => True := by
    refine handsOver_bind (parsepipeRec_ensures s.2 _ (Nat.zero_le _)) ?_ fun _ _ _ => trivial
    intro cmd ps hps
    refine peek_bind hps _ fun hpeek => ?_
    dsimp only
    split
    next => exact .pure trivial
    next => exact .pure trivial
  obtain ⟨last, hpath, -⟩ := hrun
  exact ⟨last, hpath⟩

end Traced

/-! ## The outcome -/

/-- Every `argv` of the tree has a NULL in one of its slots. -/
def Cmd.NullTerminated : Cmd → Prop
  | .exec argv => ∃ i, ∃ h : i < maxArgs, argv[i] = none
  | .redir _ cmd _ _ _ => cmd.NullTerminated
  | .pipe left right => left.NullTerminated ∧ right.NullTerminated

theorem wrap_nullTerminated {cmd : Cmd} (h : cmd.NullTerminated)
    (redirs : List (Direction × Text)) : (wrap cmd redirs).NullTerminated := by
  induction redirs generalizing cmd with
  | nil => exact h
  | cons redir redirs ih => exact @ih (redircmd cmd redir.2 redir.1) h

theorem tree_nullTerminated {stage : Stage} (h : stage.words.length < maxArgs) :
    stage.tree.NullTerminated := by
  have hexec : (Cmd.exec (argvOf stage.words)).NullTerminated :=
    ⟨stage.words.length, h, by simp [argvOf]⟩
  exact wrap_nullTerminated hexec stage.redirs

theorem Derives.nullTerminated {ts : List Token} {stages : List Stage} (h : Derives ts stages) :
    (pipelineTree stages).NullTerminated := by
  induction h with
  | last stage hlen => exact tree_nullTerminated (Nat.lt_succ_of_le hlen)
  | @bar stage ts stages hlen rest ih =>
      rw [pipelineTree_cons stage rest.ne_nil]
      exact ⟨tree_nullTerminated (Nat.lt_succ_of_le hlen), ih⟩

/-- `parsecmd` ends, with a tree or one of two messages. In every run the cursor moves
forward inside the input and `argv` is written inside its slots; and from every cursor
inside the input `gettoken` and `peek` themselves move forward inside it. -/
theorem parsecmd_safe (s : CString) :
    outcome (Traced.parsecmd s) = parsecmd s ∧
      (∃ last, Path (Moves s.1.length) 0 (events (Traced.parsecmd s).run) last) ∧
      (∀ ps ≤ s.1.length,
        Moves s.1.length ps (.gettoken ps (gettoken s.1 ps)) (gettoken s.1 ps).next ∧
          ∀ toks, Moves s.1.length ps (.peek ps (peek s.1 ps toks).2) (peek s.1 ps toks).2) ∧
      ((∃ tree, parsecmd s = .ok tree ∧ tree.NullTerminated) ∨
        parsecmd s = .error (.exit .missingFile) ∨ parsecmd s = .error (.exit .tooManyArgs)) := by
  refine ⟨Traced.outcome_parsecmd s, Traced.parsecmd_path s,
    fun ps hps => ⟨gettoken_moves s.2 hps, peek_moves hps⟩, ?_⟩
  rcases parsecmd_spec s with ⟨stages, hderives, hparsed⟩ | ⟨-, error, herror, hparsed⟩
  · exact .inl ⟨_, hparsed, hderives.nullTerminated⟩
  · right
    rcases herror with rfl | rfl
    · exact .inl hparsed
    · exact .inr hparsed

end OsCourse.Shell
