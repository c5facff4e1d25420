import OsCourse.Shell.Parser

/-! # The command grammar

The language the shell reads, stated on token lists and independently of any
cursor: a pipeline of stages, each a sequence of words and redirections. The
deterministic stage reader `takeStage` recognizes exactly the derivable
stages; the byte-level parser is compared with it.
-/

namespace OsCourse.Shell

/-- A token of the command language. -/
inductive Token
  | bar
  | redir (type : Direction)
  | word (text : Text)
  deriving DecidableEq, Repr

/-- The token a symbol byte stands for. -/
def symbol (c : UInt8) : Option Token :=
  if c = 124 then some .bar
  else if c = 60 then some (.redir .input)
  else if c = 62 then some (.redir .output)
  else none

/-- A byte of a word: neither blank nor symbol. -/
def isWordByte (c : UInt8) : Bool := !whitespace.contains c && (symbol c).isNone

/-- Blanks separate tokens, every symbol is a token, and every maximal run of
other bytes is a word. -/
def tokens : Text → List Token
  | [] => []
  | c :: cs =>
      if whitespace.contains c then tokens cs
      else
        match symbol c with
        | some token => token :: tokens cs
        | none => .word (c :: cs.takeWhile isWordByte) :: tokens (cs.dropWhile isWordByte)
termination_by s => s.length
decreasing_by
  · simp
  · simp
  · simpa using Nat.lt_succ_of_le (List.dropWhile_sublist (l := cs) isWordByte).length_le

/-- One item of a stage. -/
inductive Item
  | word (text : Text)
  | redir (type : Direction) (file : Text)
  deriving DecidableEq, Repr

def Item.tokens : Item → List Token
  | .word text => [.word text]
  | .redir type file => [.redir type, .word file]

abbrev Stage := List Item

namespace Stage

def tokens (stage : Stage) : List Token := stage.flatMap Item.tokens

/-- The bare words of a stage, in textual order. -/
def words (stage : Stage) : List Text :=
  stage.filterMap fun | .word text => some text | .redir _ _ => none

/-- The redirections of a stage, in textual order. -/
def redirs (stage : Stage) : List (Direction × Text) :=
  stage.filterMap fun | .word _ => none | .redir type file => some (type, file)

@[simp] theorem tokens_nil : tokens [] = [] := rfl
@[simp] theorem words_nil : words [] = [] := rfl
@[simp] theorem redirs_nil : redirs [] = [] := rfl

@[simp] theorem tokens_cons (item : Item) (stage : Stage) :
    tokens (item :: stage) = item.tokens ++ tokens stage := rfl

@[simp] theorem words_cons_word (text : Text) (stage : Stage) :
    words (.word text :: stage) = text :: words stage := rfl

@[simp] theorem words_cons_redir (type : Direction) (file : Text) (stage : Stage) :
    words (.redir type file :: stage) = words stage := rfl

@[simp] theorem redirs_cons_word (text : Text) (stage : Stage) :
    redirs (.word text :: stage) = redirs stage := rfl

@[simp] theorem redirs_cons_redir (type : Direction) (file : Text) (stage : Stage) :
    redirs (.redir type file :: stage) = (type, file) :: redirs stage := rfl

end Stage

/-- Wrap redirections around a command, the first one innermost. -/
def wrap (cmd : Cmd) (redirs : List (Direction × Text)) : Cmd :=
  redirs.foldl (fun cmd redir => redircmd cmd redir.2 redir.1) cmd

/-- The tree of a stage: one `execcmd` under the redirections of the stage. -/
def Stage.tree (stage : Stage) : Cmd := wrap (.exec (argvOf stage.words)) stage.redirs

/-- The tree of a pipeline: right-nested pipes over the stages in order. -/
def pipelineTree : List Stage → Cmd
  | [] => execcmd
  | [stage] => stage.tree
  | stage :: next :: rest => pipecmd stage.tree (pipelineTree (next :: rest))

/-- Derivations of the grammar `pipeline ::= stage | stage '|' pipeline`, where
a stage is a sequence of items with at most nine bare words. -/
inductive Derives : List Token → List Stage → Prop
  | last (stage : Stage) (hwords : stage.words.length ≤ 9) : Derives stage.tokens [stage]
  | bar (stage : Stage) {ts : List Token} {stages : List Stage}
      (hwords : stage.words.length ≤ 9) (rest : Derives ts stages) :
      Derives (stage.tokens ++ .bar :: ts) (stage :: stages)

theorem Derives.ne_nil {ts : List Token} {stages : List Stage} (h : Derives ts stages) :
    stages ≠ [] := by
  cases h <;> simp

/-- What may follow a stage: the end of the input or a bar. -/
def StageEnd (ts : List Token) : Prop := ts = [] ∨ ∃ rest, ts = .bar :: rest

/-- Read one stage from the front of a token list, `argc` bare words having
been read before it. -/
def takeStage : Nat → List Token → Except ParseError (Stage × List Token)
  | argc, .word text :: ts =>
      if argc + 1 ≥ maxArgs then .error .tooManyArgs
      else (takeStage (argc + 1) ts).map fun r => (.word text :: r.1, r.2)
  | argc, .redir type :: .word file :: ts =>
      (takeStage argc ts).map fun r => (.redir type file :: r.1, r.2)
  | _, .redir _ :: _ => .error .missingFile
  | _, ts => .ok ([], ts)

/-- A stage that is read is the derivable prefix of the token list. -/
theorem takeStage_sound (argc : Nat) (ts : List Token) (hargc : argc ≤ 9)
    {stage : Stage} {rest : List Token} (h : takeStage argc ts = .ok (stage, rest)) :
    ts = stage.tokens ++ rest ∧ StageEnd rest ∧ argc + stage.words.length ≤ 9 := by
  fun_induction takeStage argc ts generalizing stage with
  | case1 argc text ts hmax => cases h
  | case2 argc text ts hmax ih =>
      cases hrec : takeStage (argc + 1) ts with
      | error e => simp [hrec, Except.map] at h
      | ok r =>
          simp only [hrec, Except.map, Except.ok.injEq, Prod.mk.injEq] at h
          obtain ⟨rfl, rfl⟩ := h
          simp only [maxArgs, ge_iff_le, Nat.not_le] at hmax
          obtain ⟨hts, hend, hlen⟩ := ih (by omega) hrec
          refine ⟨by rw [hts]; rfl, hend, ?_⟩
          rw [Stage.words_cons_word, List.length_cons]
          omega
  | case3 argc type file ts ih =>
      cases hrec : takeStage argc ts with
      | error e => simp [hrec, Except.map] at h
      | ok r =>
          simp only [hrec, Except.map, Except.ok.injEq, Prod.mk.injEq] at h
          obtain ⟨rfl, rfl⟩ := h
          obtain ⟨hts, hend, hlen⟩ := ih hargc hrec
          exact ⟨by rw [hts]; rfl, hend, hlen⟩
  | case4 => cases h
  | case5 argc ts hword hpair hredir =>
      simp only [Except.ok.injEq, Prod.mk.injEq] at h
      obtain ⟨rfl, rfl⟩ := h
      refine ⟨rfl, ?_, hargc⟩
      cases ts with
      | nil => exact Or.inl rfl
      | cons token ts =>
          cases token with
          | bar => exact Or.inr ⟨ts, rfl⟩
          | redir type => exact absurd rfl (hredir type ts)
          | word text => exact absurd rfl (hword text ts)

/-- Every derivable stage is read back, whatever follows it. -/
theorem takeStage_complete (argc : Nat) (stage : Stage) (rest : List Token)
    (hend : StageEnd rest) (hlen : argc + stage.words.length ≤ 9) :
    takeStage argc (stage.tokens ++ rest) = .ok (stage, rest) := by
  induction stage generalizing argc with
  | nil =>
      rcases hend with rfl | ⟨rest, rfl⟩ <;> rfl
  | cons item stage ih =>
      cases item with
      | word text =>
          simp only [Stage.words_cons_word, List.length_cons] at hlen
          have hmax : ¬ argc + 1 ≥ maxArgs := by
            simp only [maxArgs]
            omega
          simp only [Stage.tokens_cons, Item.tokens, List.cons_append, List.nil_append,
            takeStage, if_neg hmax, ih (argc + 1) (by omega), Except.map]
      | redir type file =>
          simp only [Stage.tokens_cons, Item.tokens, List.cons_append, List.nil_append,
            takeStage, ih argc hlen, Except.map]

theorem takeStage_error (argc : Nat) (ts : List Token) {error : ParseError}
    (h : takeStage argc ts = .error error) : error = .missingFile ∨ error = .tooManyArgs := by
  fun_induction takeStage argc ts with
  | case1 argc text ts hmax => cases h; exact Or.inr rfl
  | case2 argc text ts hmax ih =>
      cases hrec : takeStage (argc + 1) ts with
      | error other => simp only [hrec, Except.map] at h; exact ih (hrec.trans h)
      | ok r => simp [hrec, Except.map] at h
  | case3 argc type file ts ih =>
      cases hrec : takeStage argc ts with
      | error other => simp only [hrec, Except.map] at h; exact ih (hrec.trans h)
      | ok r => simp [hrec, Except.map] at h
  | case4 => cases h; exact Or.inl rfl
  | case5 => cases h

/-- A derivation starts with the stage the reader takes. -/
theorem Derives.takeStage {ts : List Token} {stages : List Stage} (h : Derives ts stages) :
    ∃ stage rest, takeStage 0 ts = .ok (stage, rest) ∧
      ((rest = [] ∧ stages = [stage]) ∨ ∃ ts' stages',
        rest = .bar :: ts' ∧ stages = stage :: stages' ∧ Derives ts' stages') := by
  cases h with
  | last stage hwords =>
      have htake := takeStage_complete 0 stage [] (Or.inl rfl) (by omega)
      rw [List.append_nil] at htake
      exact ⟨stage, [], htake, Or.inl ⟨rfl, rfl⟩⟩
  | @bar stage ts stages hwords rest =>
      have htake := takeStage_complete 0 stage (.bar :: ts) (Or.inr ⟨ts, rfl⟩) (by omega)
      exact ⟨stage, .bar :: ts, htake, Or.inr ⟨ts, stages, rfl, rfl, rest⟩⟩

/-- A token list has at most one derivation. -/
theorem Derives.unique {ts : List Token} {first second : List Stage}
    (hfirst : Derives ts first) (hsecond : Derives ts second) : first = second := by
  induction first generalizing ts second with
  | nil => exact absurd rfl hfirst.ne_nil
  | cons head tail ih =>
      obtain ⟨stage, rest, htake, hshape⟩ := hfirst.takeStage
      obtain ⟨stage', rest', htake', hshape'⟩ := hsecond.takeStage
      rw [htake] at htake'
      cases htake'
      rcases hshape with ⟨rfl, hstages⟩ | ⟨ts', stages, rfl, hstages, hderives⟩
      · rcases hshape' with ⟨-, hstages'⟩ | ⟨ts', stages', hrest, -, -⟩
        · exact hstages.trans hstages'.symm
        · cases hrest
      · rcases hshape' with ⟨hrest, -⟩ | ⟨ts'', stages', hrest, hstages', hderives'⟩
        · cases hrest
        · cases hrest
          cases hstages
          rw [hstages', ih hderives hderives']

theorem pipelineTree_cons (stage : Stage) {stages : List Stage} (h : stages ≠ []) :
    pipelineTree (stage :: stages) = pipecmd stage.tree (pipelineTree stages) := by
  cases stages with
  | nil => exact absurd rfl h
  | cons next rest => rfl

end OsCourse.Shell
