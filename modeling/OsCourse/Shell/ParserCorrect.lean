import OsCourse.Shell.ParserTokens

/-! # The parser recognizes the grammar

The routines are followed from the inside out: `parseredirs` takes the leading
redirections of a stage, `parseexec` takes a stage and fills the arguments of
an `execcmd` already buried under redirections, `parsepipe` takes a pipeline.
Each one does to the cursor what `takeStage` or a derivation does to tokens.
-/

namespace OsCourse.Shell

theorem wrap_append (cmd : Cmd) (first second : List (Direction × Text)) :
    wrap cmd (first ++ second) = wrap (wrap cmd first) second := by
  simp [wrap]

/-- Arguments are written through the redirections wrapped around a command. -/
theorem setArgv_wrap (i : Nat) (arg : Option Text) (cmd next : Cmd)
    (redirs : List (Direction × Text)) (h : cmd.setArgv i arg = .ok next) :
    (wrap cmd redirs).setArgv i arg = .ok (wrap next redirs) := by
  induction redirs generalizing cmd next with
  | nil => exact h
  | cons redir redirs ih =>
      apply ih (redircmd cmd redir.2 redir.1) (redircmd next redir.2 redir.1)
      simp only [redircmd, Cmd.setArgv, h]
      rfl

theorem setArgv_wrap_word (words : List Text) (word : Text) (redirs : List (Direction × Text))
    (hlen : words.length < maxArgs) :
    (wrap (.exec (argvOf words)) redirs).setArgv words.length (some word) =
      .ok (wrap (.exec (argvOf (words ++ [word]))) redirs) := by
  apply setArgv_wrap
  rw [Cmd.setArgv, dif_pos hlen, argvOf_set_some]

theorem setArgv_wrap_null (words : List Text) (redirs : List (Direction × Text))
    (hlen : words.length < maxArgs) :
    (wrap (.exec (argvOf words)) redirs).setArgv words.length none =
      .ok (wrap (.exec (argvOf words)) redirs) := by
  apply setArgv_wrap
  rw [Cmd.setArgv, dif_pos hlen, argvOf_set_none]

/-- The items of a list of redirections. -/
def redirItems (redirs : List (Direction × Text)) : Stage :=
  redirs.map fun redir => .redir redir.1 redir.2

@[simp] theorem words_redirItems_append (redirs : List (Direction × Text)) (stage : Stage) :
    Stage.words (redirItems redirs ++ stage) = stage.words := by
  induction redirs with
  | nil => rfl
  | cons redir redirs ih => exact ih

@[simp] theorem redirs_redirItems_append (redirs : List (Direction × Text)) (stage : Stage) :
    Stage.redirs (redirItems redirs ++ stage) = redirs ++ stage.redirs := by
  induction redirs with
  | nil => rfl
  | cons redir redirs ih => exact congrArg (redir :: ·) ih

/-- The next token, if any, is not a redirection. -/
def NoRedir (ts : List Token) : Prop := ∀ token ∈ ts.head?, token.isRedir = false

section Routines

variable {buf : Text} (hnul : (0 : UInt8) ∉ buf)
include hnul

/-- What `parseredirs` leaves behind: the leading redirections are wrapped
around the command and the next token is not a redirection. It fails only on
a stage that cannot be read. -/
def RedirsSpec (buf : Text) (cmd : Cmd) (ts : List Token) (parsed : Except Halt (Cmd × Nat)) :
    Prop :=
  (∃ redirs ps ts', parsed = .ok (wrap cmd redirs, ps) ∧ Yields buf ps ts' ∧ NoRedir ts' ∧
      ts'.length ≤ ts.length ∧ ∀ argc, takeStage argc ts =
        (takeStage argc ts').map fun r => (redirItems redirs ++ r.1, r.2)) ∨
    (parsed = .error (.exit .missingFile) ∧ ∀ argc, takeStage argc ts = .error .missingFile)

omit hnul in
theorem RedirsSpec.stop {cmd : Cmd} {ps : Nat} {ts : List Token} (h : Yields buf ps ts)
    (hredir : NoRedir ts) : RedirsSpec buf cmd ts (.ok (cmd, ps)) := by
  refine Or.inl ⟨[], ps, ts, rfl, h, hredir, Nat.le_refl _, fun argc => ?_⟩
  cases takeStage argc ts <;> rfl

omit hnul in
/-- One redirection in front of what the loop does afterwards. -/
theorem RedirsSpec.cons {cmd : Cmd} {type : Direction} {file : Text} {ts : List Token}
    {parsed : Except Halt (Cmd × Nat)}
    (h : RedirsSpec buf (redircmd cmd file type) ts parsed) :
    RedirsSpec buf cmd (.redir type :: .word file :: ts) parsed := by
  rcases h with ⟨redirs, ps, ts', hparsed, hyields, hredir, hlen, hstage⟩ | ⟨hparsed, hstage⟩
  · refine Or.inl ⟨(type, file) :: redirs, ps, ts', hparsed, hyields, hredir, ?_, fun argc => ?_⟩
    · simp only [List.length_cons]
      omega
    · rw [takeStage, hstage argc]
      cases takeStage argc ts' <;> rfl
  · refine Or.inr ⟨hparsed, fun argc => ?_⟩
    rw [takeStage, hstage argc]
    rfl

theorem parseredirsLoop_spec (fuel : Nat) (cmd : Cmd) (ps : Nat) (ts : List Token)
    (h : Yields buf ps ts) (hfuel : ts.length < fuel) :
    RedirsSpec buf cmd ts (parseredirsLoop buf fuel cmd ps) := by
  induction fuel generalizing cmd ps ts with
  | zero => omega
  | succ fuel ih =>
      have hpeek := peek_yields hnul h [60, 62]
      unfold parseredirsLoop
      dsimp only
      cases ts with
      | nil =>
          rw [if_neg (by simp [peek_nil hnul h])]
          exact .stop hpeek (by simp [NoRedir])
      | cons token ts =>
          rw [peek_redir hnul h]
          rcases token with _ | type | text
          · exact .stop hpeek (by simp [NoRedir, Token.isRedir])
          · rw [if_pos (by rfl)]
            obtain ⟨htok, hnext, -⟩ := gettoken_cons hnul hpeek
            -- a file name must follow the redirection symbol
            cases ts with
            | nil =>
                rw [if_pos (by simp [(gettoken_nil hnul hnext).1])]
                exact Or.inr ⟨rfl, fun argc => rfl⟩
            | cons name ts =>
                obtain ⟨hname, hrest, hcopy⟩ := gettoken_cons hnul hnext
                simp only [List.length_cons] at hfuel
                rcases name with _ | other | file
                · rw [if_pos (by simp [hname, Token.code])]
                  exact Or.inr ⟨rfl, fun argc => rfl⟩
                · rw [if_pos (by cases other <;> simp [hname, Token.code])]
                  exact Or.inr ⟨rfl, fun argc => rfl⟩
                · rw [if_neg (by simp [hname, Token.code]), hcopy file rfl, htok]
                  cases type <;> exact .cons (ih _ _ ts hrest (by omega))
          · exact .stop hpeek (by simp [NoRedir, Token.isRedir])

theorem parseredirs_spec (cmd : Cmd) (ps : Nat) (ts : List Token) (h : Yields buf ps ts) :
    RedirsSpec buf cmd ts (parseredirs buf cmd ps) :=
  parseredirsLoop_spec hnul _ cmd ps ts h (Nat.lt_succ_of_le h.length_le)

/-- The parser and the stage reader stop at the same place with the same tree,
`words` and `redirs` having been collected before, or with the same error. -/
def StageSpec (buf : Text) (words : List Text) (redirs : List (Direction × Text))
    (parsed : Except Halt (Cmd × Nat)) : Except ParseError (Stage × List Token) → Prop
  | .ok (stage, rest) => ∃ ps, Yields buf ps rest ∧ parsed =
      .ok (wrap (.exec (argvOf (words ++ stage.words))) (redirs ++ stage.redirs), ps)
  | .error error => parsed = .error (.exit error)

omit hnul in
theorem StageSpec.cons_word {words : List Text} {redirs : List (Direction × Text)}
    {word : Text} {parsed : Except Halt (Cmd × Nat)}
    {taken : Except ParseError (Stage × List Token)}
    (h : StageSpec buf (words ++ [word]) redirs parsed taken) :
    StageSpec buf words redirs parsed (taken.map fun r => (.word word :: r.1, r.2)) := by
  cases taken with
  | error error => exact h
  | ok r => simpa [StageSpec, Except.map] using h

omit hnul in
theorem StageSpec.append_redirs {words : List Text} {first second : List (Direction × Text)}
    {parsed : Except Halt (Cmd × Nat)} {taken : Except ParseError (Stage × List Token)}
    (h : StageSpec buf words (first ++ second) parsed taken) :
    StageSpec buf words first parsed
      (taken.map fun r => (redirItems second ++ r.1, r.2)) := by
  cases taken with
  | error error => exact h
  | ok r => simpa [StageSpec, Except.map] using h

theorem parseexecLoop_spec (fuel : Nat) (words : List Text) (redirs : List (Direction × Text))
    (ps : Nat) (ts : List Token) (h : Yields buf ps ts) (hredir : NoRedir ts)
    (hlen : words.length < maxArgs) (hfuel : ts.length < fuel) :
    StageSpec buf words redirs
      (parseexecLoop buf fuel words.length (wrap (.exec (argvOf words)) redirs) ps)
      (takeStage words.length ts) := by
  induction fuel generalizing words redirs ps ts with
  | zero => omega
  | succ fuel ih =>
      have hpeek := peek_yields hnul h [124]
      unfold parseexecLoop
      dsimp only
      cases ts with
      | nil =>
          obtain ⟨hcode, hnext⟩ := gettoken_nil hnul hpeek
          rw [peek_nil hnul h]
          simp only [Bool.false_eq_true, ↓reduceIte, hcode, setArgv_wrap_null words redirs hlen]
          exact ⟨_, hnext, by simp⟩
      | cons token ts =>
          rw [peek_bar hnul h]
          rcases token with _ | type | text
          · simp only [decide_true, ↓reduceIte, setArgv_wrap_null words redirs hlen]
            exact ⟨_, hpeek, by simp⟩
          · exact absurd (hredir _ rfl) (by simp [Token.isRedir])
          · obtain ⟨hcode, hnext, hcopy⟩ := gettoken_cons hnul hpeek
            simp only [reduceCtorEq, decide_false, Bool.false_eq_true, ↓reduceIte, hcode,
              Token.code, hcopy text rfl, ne_eq, not_true_eq_false,
              setArgv_wrap_word words text redirs hlen]
            rw [takeStage]
            by_cases hmax : words.length + 1 ≥ maxArgs
            · rw [if_pos hmax]
              simp only [StageSpec, bind, Except.bind, hmax, ↓reduceIte]
              rfl
            · rw [if_neg hmax]
              simp only [bind, Except.bind, hmax, ↓reduceIte]
              apply StageSpec.cons_word
              have hargc : words.length + 1 = (words ++ [text]).length := by simp
              simp only [List.length_cons] at hfuel
              rw [hargc] at hmax ⊢
              rcases parseredirs_spec hnul (wrap (.exec (argvOf (words ++ [text]))) redirs)
                _ ts hnext with ⟨more, ps', ts', hparsed, hyields, hnone, hshort, hstage⟩ |
                ⟨hparsed, hstage⟩
              · rw [hstage]
                apply StageSpec.append_redirs
                simp only [hparsed, ← wrap_append]
                exact ih _ _ ps' ts' hyields hnone (by omega) (by omega)
              · rw [hstage]
                simp only [hparsed]
                rfl

theorem parseexec_spec (ps : Nat) (ts : List Token) (h : Yields buf ps ts) :
    StageSpec buf [] [] (parseexec buf ps) (takeStage 0 ts) := by
  have hexec : execcmd = .exec (argvOf []) := by
    rw [argvOf_nil]
    rfl
  rcases parseredirs_spec hnul execcmd ps ts h with
    ⟨redirs, ps', ts', hparsed, hyields, hnone, hshort, hstage⟩ | ⟨hparsed, hstage⟩
  · rw [hstage]
    apply StageSpec.append_redirs
    simp only [parseexec, hparsed, bind, Except.bind]
    rw [hexec]
    exact parseexecLoop_spec hnul _ [] redirs ps' ts' hyields hnone (by simp [maxArgs])
      (Nat.lt_succ_of_le hyields.length_le)
  · rw [hstage]
    simp only [StageSpec, parseexec, hparsed, bind, Except.bind]

/-- A pipeline that is read is derivable; one that is not read is rejected for
a missing file name or for too many arguments. -/
def PipeSpec (buf : Text) (ts : List Token) (parsed : Except Halt (Cmd × Nat)) : Prop :=
  (∃ stages ps, Derives ts stages ∧ parsed = .ok (pipelineTree stages, ps) ∧ Yields buf ps []) ∨
    ((∀ stages, ¬ Derives ts stages) ∧
      ∃ error, (error = .missingFile ∨ error = .tooManyArgs) ∧ parsed = .error (.exit error))

theorem parsepipeRec_spec (fuel ps : Nat) (ts : List Token) (h : Yields buf ps ts)
    (hfuel : ts.length < fuel) : PipeSpec buf ts (parsepipeRec buf fuel ps) := by
  induction fuel generalizing ps ts with
  | zero => omega
  | succ fuel ih =>
      have hexec := parseexec_spec hnul ps ts h
      unfold parsepipeRec
      cases hstage : takeStage 0 ts with
      | error error =>
          rw [hstage] at hexec
          refine Or.inr ⟨?_, error, takeStage_error 0 ts hstage, ?_⟩
          · intro stages hderives
            obtain ⟨stage, rest, htake, -⟩ := hderives.takeStage
            rw [hstage] at htake
            cases htake
          · rw [hexec]
            rfl
      | ok r =>
          obtain ⟨stage, rest⟩ := r
          rw [hstage] at hexec
          obtain ⟨ps', hyields, hparsed⟩ := hexec
          obtain ⟨hts, hend, hwords⟩ := takeStage_sound 0 ts (by omega) hstage
          have hpeek := peek_yields hnul hyields [124]
          simp only [hparsed, bind, Except.bind, List.nil_append]
          rcases hend with rfl | ⟨ts', rfl⟩
          · rw [peek_nil hnul hyields]
            refine Or.inl ⟨[stage], _, ?_, rfl, hpeek⟩
            rw [hts, List.append_nil]
            exact .last stage (by omega)
          · obtain ⟨-, hnext, -⟩ := gettoken_cons hnul hpeek
            have hlen := congrArg List.length hts
            simp only [List.length_append, List.length_cons] at hlen
            rw [peek_bar hnul hyields]
            simp only [decide_true, ↓reduceIte]
            rcases ih _ ts' hnext (by omega) with
              ⟨stages, last, hderives, hrest, hyields⟩ | ⟨hnone, error, herror, hrest⟩
            · rw [hrest]
              refine Or.inl ⟨stage :: stages, last, ?_, ?_, hyields⟩
              · rw [hts]
                exact .bar stage (by omega) hderives
              · rw [pipelineTree_cons stage hderives.ne_nil]
                rfl
            · rw [hrest]
              refine Or.inr ⟨?_, error, herror, rfl⟩
              intro stages hderives
              obtain ⟨other, rest, htake, hrest⟩ := hderives.takeStage
              rw [hstage] at htake
              cases htake
              rcases hrest with ⟨hrest, -⟩ | ⟨ts'', stages', hrest, -, hderives⟩
              · cases hrest
              · cases hrest
                exact hnone stages' hderives

/-- With no token ahead only blanks are left. -/
theorem skipBlanks_eq_length {ps : Nat} (h : Yields buf ps []) :
    skipBlanks buf ps = buf.length := by
  have hle := (h.skipBlanks hnul).le
  have htokens := (h.skipBlanks hnul).eq
  rcases drop_skipBlanks_cases hnul ps with hdrop | ⟨c, cs, hdrop, hzero, hblank⟩
  · have hlen := List.drop_eq_nil_iff.mp hdrop
    omega
  · rw [hdrop] at htokens
    cases hsymbol : symbol c with
    | some token => simp [tokens_cons_symbol cs hblank hsymbol] at htokens
    | none => simp [tokens_cons_word cs hblank hsymbol] at htokens

end Routines

/-- `parsecmd` returns the tree of the derivation of its input, or exits for a
missing file name or for too many arguments. -/
theorem parsecmd_spec (s : CString) :
    (∃ stages, Derives (tokens s.1) stages ∧ parsecmd s = .ok (pipelineTree stages)) ∨
      ((∀ stages, ¬ Derives (tokens s.1) stages) ∧
        ∃ error, (error = .missingFile ∨ error = .tooManyArgs) ∧
          parsecmd s = .error (.exit error)) := by
  obtain ⟨buf, hnul⟩ := s
  have hstart : Yields buf 0 (tokens buf) := ⟨Nat.zero_le _, rfl⟩
  rcases parsepipeRec_spec hnul (buf.length + 1) 0 (tokens buf) hstart
    (Nat.lt_succ_of_le hstart.length_le) with
    ⟨stages, ps, hderives, hparsed, hyields⟩ | ⟨hnone, error, herror, hparsed⟩
  · refine Or.inl ⟨stages, hderives, ?_⟩
    simp only [parsecmd, parseline, parsepipe, hparsed, bind, Except.bind, peek,
      skipBlanks_eq_length hnul hyields, ne_eq, not_true_eq_false, ↓reduceIte]
    rfl
  · refine Or.inr ⟨hnone, error, herror, ?_⟩
    simp only [parsecmd, parseline, parsepipe, hparsed, bind, Except.bind]

theorem parsecmd_ok_iff (s : CString) (tree : Cmd) :
    parsecmd s = .ok tree ↔ ∃ stages, Derives (tokens s.1) stages ∧ tree = pipelineTree stages := by
  rcases parsecmd_spec s with ⟨stages, hderives, hparsed⟩ | ⟨hnone, error, -, hparsed⟩
  · rw [hparsed]
    constructor
    · intro heq
      cases heq
      exact ⟨stages, hderives, rfl⟩
    · rintro ⟨others, hothers, rfl⟩
      rw [hderives.unique hothers]
  · rw [hparsed]
    constructor
    · intro heq
      cases heq
    · rintro ⟨stages, hderives, -⟩
      exact absurd hderives (hnone stages)

/-- `parsecmd` succeeds exactly on the token lists of the grammar, with the
tree of their only derivation, and exits with a message on all others. -/
theorem parsecmd_recognizes_grammar (s : CString) :
    (∀ tree, parsecmd s = .ok tree ↔
      ∃ stages, Derives (tokens s.1) stages ∧ tree = pipelineTree stages) ∧
    ((∀ stages, ¬ Derives (tokens s.1) stages) → ∃ error, parsecmd s = .error (.exit error)) := by
  refine ⟨parsecmd_ok_iff s, fun hnone => ?_⟩
  rcases parsecmd_spec s with ⟨stages, hderives, -⟩ | ⟨-, error, -, hparsed⟩
  · exact absurd hderives (hnone stages)
  · exact ⟨error, hparsed⟩

end OsCourse.Shell
