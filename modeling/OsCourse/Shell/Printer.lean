import Mathlib.Data.List.ReduceOption
import OsCourse.Shell.ParserCorrect

/-! # Printing commands

The trees `parsecmd` returns are right-nested pipes over stages, each a chain of
redirections over one `execcmd`. Such a tree has a canonical text, and parsing
that text gives the tree back.
-/

namespace OsCourse.Shell

/-- A word of the command language: not empty, without NUL, blanks and symbols. -/
structure IsWord (text : Text) : Prop where
  ne_nil : text ≠ []
  nulFree : (0 : UInt8) ∉ text
  wordBytes : ∀ c ∈ text, isWordByte c = true

/-- A chain of redirections over one `execcmd` with at most nine arguments. -/
inductive IsStage : Cmd → Prop
  | exec (words : List Text) (hlen : words.length ≤ 9) (hwords : ∀ word ∈ words, IsWord word) :
      IsStage (.exec (argvOf words))
  | redir (type : Direction) {cmd : Cmd} {file : Text} (hcmd : IsStage cmd) (hfile : IsWord file) :
      IsStage (redircmd cmd file type)

/-- Right-nested pipes over stages. -/
inductive IsPipeline : Cmd → Prop
  | stage {cmd : Cmd} (hcmd : IsStage cmd) : IsPipeline cmd
  | pipe {left right : Cmd} (hleft : IsStage left) (hright : IsPipeline right) :
      IsPipeline (pipecmd left right)

/-! ## The printer -/

/-- The arguments in front of the first NULL slot. -/
def argWords (argv : Argv) : List Text := (argv.toList.takeWhile Option.isSome).reduceOption

/-- The bytes of a token. -/
def Token.text : Token → Text
  | .bar => [124]
  | .redir .input => [60]
  | .redir .output => [62]
  | .word text => text

/-- The arguments of a stage, then its redirections from the innermost on. -/
def stageTokens : Cmd → List Token
  | .exec argv => (argWords argv).map .word
  | .redir type cmd file _ _ => stageTokens cmd ++ [.redir type, .word file]
  | .pipe _ _ => []

/-- Tokens separated by blanks. -/
def spaced (ts : List Token) : Text := [32].intercalate (ts.map Token.text)

/-- The text of a stage. -/
def printStage (cmd : Cmd) : Text := spaced (stageTokens cmd)

/-- The text of a command: its stages joined by ` | `. -/
def printCmd : Cmd → Text
  | .pipe left right => printStage left ++ [32, 124, 32] ++ printCmd right
  | cmd => printStage cmd

theorem IsStage.printCmd {cmd : Cmd} (h : IsStage cmd) : printCmd cmd = printStage cmd := by
  cases h <;> rfl

theorem reduceOption_takeWhile_isSome (words : List Text) (n : Nat) :
    ((words.map some ++ List.replicate n none).takeWhile Option.isSome).reduceOption = words := by
  induction words with
  | nil => cases n <;> rfl
  | cons word words ih =>
      rw [List.map_cons, List.cons_append, List.takeWhile_cons_of_pos rfl,
        List.reduceOption_cons_of_some, ih]

theorem argWords_argvOf {words : List Text} (h : words.length ≤ 9) :
    argWords (argvOf words) = words := by
  have hslots : (argvOf words).toList =
      words.map some ++ List.replicate (maxArgs - words.length) none := by
    rw [argvOf, Vector.toList_ofFn]
    apply List.ext_getElem
    · rw [List.length_ofFn, List.length_append, List.length_map, List.length_replicate, maxArgs]
      omega
    · intro i _ _
      rw [List.getElem_ofFn]
      rcases Nat.lt_or_ge i words.length with hlt | hge
      · rw [List.getElem_append_left (by rwa [List.length_map]), List.getElem_map,
          List.getElem?_eq_getElem hlt]
      · rw [List.getElem_append_right (by rwa [List.length_map]), List.getElem_replicate,
          List.getElem?_eq_none hge]
  rw [argWords, hslots, reduceOption_takeWhile_isSome]

/-! ## Reading the text back -/

/-- A word ends where its text ends or a blank follows. -/
theorem tokens_word_append {word : Text} (hword : IsWord word) {rest : Text}
    (hrest : rest = [] ∨ ∃ more, rest = 32 :: more) :
    tokens (word ++ rest) = .word word :: tokens rest := by
  obtain ⟨c, cs, rfl⟩ := List.exists_cons_of_ne_nil hword.ne_nil
  obtain ⟨hc, hcs⟩ := List.forall_mem_cons.mp hword.wordBytes
  have hstop : rest.takeWhile isWordByte = [] ∧ rest.dropWhile isWordByte = rest := by
    rcases hrest with rfl | ⟨more, rfl⟩
    · exact ⟨rfl, rfl⟩
    · exact ⟨List.takeWhile_cons_of_neg (by decide), List.dropWhile_cons_of_neg (by decide)⟩
  rw [isWordByte, Bool.and_eq_true, Bool.not_eq_true', Option.isNone_iff_eq_none] at hc
  rw [List.cons_append, tokens_cons_word _ hc.1 hc.2, List.takeWhile_append_of_pos hcs, hstop.1,
    List.append_nil, List.dropWhile_append_of_pos hcs, hstop.2]

theorem tokens_symbol_append {token : Token} (htoken : ∀ text, token ≠ .word text) (rest : Text) :
    tokens (token.text ++ rest) = token :: tokens rest := by
  match token with
  | .bar => exact tokens_cons_symbol rest rfl rfl
  | .redir .input => exact tokens_cons_symbol rest rfl rfl
  | .redir .output => exact tokens_cons_symbol rest rfl rfl
  | .word text => exact absurd rfl (htoken text)

theorem tokens_text_append {token : Token} (htoken : ∀ text, token = .word text → IsWord text)
    {rest : Text} (hrest : rest = [] ∨ ∃ more, rest = 32 :: more) :
    tokens (token.text ++ rest) = token :: tokens rest := by
  cases token with
  | bar => exact tokens_symbol_append (by simp) rest
  | redir type => exact tokens_symbol_append (by simp) rest
  | word text => exact tokens_word_append (htoken text rfl) hrest

theorem spaced_cons_cons (token next : Token) (ts : List Token) :
    spaced (token :: next :: ts) = token.text ++ 32 :: spaced (next :: ts) := by
  simp [spaced, List.intercalate_cons_cons]

/-- Tokens separated by blanks are read back. -/
theorem tokens_spaced_append {ts : List Token} (hts : ∀ text, .word text ∈ ts → IsWord text)
    {rest : Text} (hrest : rest = [] ∨ ∃ more, rest = 32 :: more) :
    tokens (spaced ts ++ rest) = ts ++ tokens rest := by
  induction ts with
  | nil => rfl
  | cons token ts ih =>
      have htoken : ∀ text, token = .word text → IsWord text :=
        fun text heq => hts text (heq ▸ List.mem_cons_self)
      have hmore : ∀ text, .word text ∈ ts → IsWord text :=
        fun text hmem => hts text (List.mem_cons_of_mem _ hmem)
      cases ts with
      | nil =>
          rw [spaced, List.map_singleton, List.intercalate_singleton]
          exact tokens_text_append htoken hrest
      | cons next ts =>
          rw [spaced_cons_cons, List.append_assoc, List.cons_append,
            tokens_text_append htoken (Or.inr ⟨_, rfl⟩), tokens_cons_blank _ rfl, ih hmore]
          rfl

theorem nulFree_spaced {ts : List Token} (hts : ∀ text, .word text ∈ ts → IsWord text) :
    (0 : UInt8) ∉ spaced ts := by
  induction ts with
  | nil => exact List.not_mem_nil
  | cons token ts ih =>
      have htoken : (0 : UInt8) ∉ token.text := by
        match token with
        | .bar => decide
        | .redir .input => decide
        | .redir .output => decide
        | .word text => exact (hts text List.mem_cons_self).nulFree
      have hmore := ih fun text hmem => hts text (List.mem_cons_of_mem _ hmem)
      cases ts with
      | nil =>
          rw [spaced, List.map_singleton, List.intercalate_singleton]
          exact htoken
      | cons next ts =>
          rw [spaced_cons_cons]
          simp [htoken, hmore]

/-! ## The stages of a tree -/

/-- The stage with all its words in front. -/
theorem IsStage.exists_stage {cmd : Cmd} (h : IsStage cmd) :
    ∃ stage : Stage, stage.tree = cmd ∧ stage.words.length ≤ 9 ∧ stage.tokens = stageTokens cmd ∧
      ∀ text, .word text ∈ stageTokens cmd → IsWord text := by
  induction h with
  | exec words hlen hwords =>
      have hitems : Stage.words (words.map .word) = words := by
        simp [Stage.words, List.filterMap_map]
      have hredirs : Stage.redirs (words.map .word) = [] := by
        simp [Stage.redirs, List.filterMap_map]
      refine ⟨words.map .word, ?_, ?_, ?_, ?_⟩
      · rw [Stage.tree, hitems, hredirs]
        rfl
      · rwa [hitems]
      · rw [stageTokens, argWords_argvOf hlen]
        rw [Stage.tokens, List.flatMap_map, List.map_eq_flatMap]
        rfl
      · intro text hmem
        rw [stageTokens, argWords_argvOf hlen] at hmem
        exact hwords text (by simpa using hmem)
  | @redir type cmd file hcmd hfile ih =>
      obtain ⟨stage, htree, hlen, htokens, hwords⟩ := ih
      have hsame : Stage.words (stage ++ [.redir type file]) = stage.words := by
        simp [Stage.words]
      have hlast : Stage.redirs (stage ++ [.redir type file]) = stage.redirs ++ [(type, file)] := by
        simp [Stage.redirs]
      refine ⟨stage ++ [.redir type file], ?_, ?_, ?_, ?_⟩
      · rw [Stage.tree, hsame, hlast, wrap_append, ← Stage.tree, htree]
        rfl
      · rwa [hsame]
      · rw [Stage.tokens, List.flatMap_append, ← Stage.tokens, htokens]
        rfl
      · intro text hmem
        rcases List.mem_append.mp hmem with hmem | hmem
        · exact hwords text hmem
        · obtain rfl : text = file := by simpa using hmem
          exact hfile

/-- The text of a tree derives it. -/
theorem IsPipeline.derives {cmd : Cmd} (h : IsPipeline cmd) :
    ∃ stages, Derives (tokens (printCmd cmd)) stages ∧ pipelineTree stages = cmd := by
  induction h with
  | @stage cmd hcmd =>
      obtain ⟨stage, htree, hlen, htokens, hwords⟩ := hcmd.exists_stage
      have htext := tokens_spaced_append hwords (Or.inl rfl)
      rw [List.append_nil, tokens_nil, List.append_nil] at htext
      rw [hcmd.printCmd, printStage, htext, ← htokens]
      exact ⟨[stage], .last stage hlen, htree⟩
  | @pipe left right hleft hright ih =>
      obtain ⟨stage, htree, hlen, htokens, hwords⟩ := hleft.exists_stage
      obtain ⟨stages, hderives, hright⟩ := ih
      have hbar : tokens ([32, 124, 32] ++ printCmd right) = .bar :: tokens (printCmd right) := by
        rw [List.cons_append, List.cons_append, List.cons_append, List.nil_append,
          tokens_cons_blank _ rfl, tokens_cons_symbol _ rfl rfl, tokens_cons_blank _ rfl]
      have hblank : [32, 124, 32] ++ printCmd right = 32 :: 124 :: 32 :: printCmd right := rfl
      have htext : tokens (printCmd (pipecmd left right)) =
          stage.tokens ++ .bar :: tokens (printCmd right) := by
        rw [pipecmd, printCmd, List.append_assoc, printStage,
          tokens_spaced_append hwords (Or.inr ⟨_, hblank⟩), hbar, htokens]
      refine ⟨stage :: stages, ?_, ?_⟩
      · rw [htext]
        exact .bar stage hlen hderives
      · rw [pipelineTree_cons stage hderives.ne_nil, htree, hright]

theorem IsPipeline.nulFree {cmd : Cmd} (h : IsPipeline cmd) : (0 : UInt8) ∉ printCmd cmd := by
  induction h with
  | stage hcmd =>
      obtain ⟨-, -, -, -, hwords⟩ := hcmd.exists_stage
      rw [hcmd.printCmd]
      exact nulFree_spaced hwords
  | pipe hleft hright ih =>
      obtain ⟨-, -, -, -, hwords⟩ := hleft.exists_stage
      have hstage := nulFree_spaced hwords
      rw [pipecmd, printCmd, printStage]
      simp [hstage, ih]

/-! ## The trees that are returned -/

theorem isWord_of_mem_tokens {s : Text} (hnul : (0 : UInt8) ∉ s) {text : Text}
    (h : .word text ∈ tokens s) : IsWord text := by
  fun_induction tokens s with
  | case1 => cases h
  | case2 c cs hc ih => exact ih (fun hzero => hnul (List.mem_cons_of_mem _ hzero)) h
  | case3 c cs hc token hsymbol ih =>
      rcases List.mem_cons.mp h with rfl | hmem
      · exact absurd hsymbol (symbol_ne_word c text)
      · exact ih (fun hzero => hnul (List.mem_cons_of_mem _ hzero)) hmem
  | case4 c cs hc hsymbol ih =>
      rcases List.mem_cons.mp h with heq | hmem
      · obtain rfl := Token.word.inj heq
        refine ⟨List.cons_ne_nil _ _, ?_, ?_⟩
        · intro hzero
          rcases List.mem_cons.mp hzero with rfl | hzero
          · exact hnul List.mem_cons_self
          · exact hnul (List.mem_cons_of_mem _ ((List.takeWhile_sublist _).subset hzero))
        · intro d hd
          rcases List.mem_cons.mp hd with rfl | hd
          · rw [isWordByte, hsymbol, Bool.eq_false_iff.mpr hc]
            rfl
          · exact List.all_eq_true.mp List.all_takeWhile d hd
      · refine ih (fun hzero => hnul ?_) hmem
        exact List.mem_cons_of_mem _ ((List.dropWhile_sublist _).subset hzero)

/-- A command wrapped in redirections of words is a stage. -/
theorem IsStage.wrap {cmd : Cmd} (h : IsStage cmd) {redirs : List (Direction × Text)}
    (hfiles : ∀ redir ∈ redirs, IsWord redir.2) : IsStage (wrap cmd redirs) := by
  induction redirs generalizing cmd with
  | nil => exact h
  | cons redir redirs ih =>
      obtain ⟨hfile, hmore⟩ := List.forall_mem_cons.mp hfiles
      exact ih (.redir redir.1 h hfile) hmore

theorem isStage_tree {stage : Stage} (hlen : stage.words.length ≤ 9)
    (hwords : ∀ text, .word text ∈ stage.tokens → IsWord text) : IsStage stage.tree := by
  have hitem : ∀ item ∈ stage, ∀ text, .word text ∈ item.tokens → IsWord text :=
    fun item hitem text htext => hwords text (List.mem_flatMap.mpr ⟨item, hitem, htext⟩)
  refine (IsStage.exec stage.words hlen ?_).wrap ?_
  · intro word hword
    obtain ⟨item, hmem, heq⟩ := List.mem_filterMap.mp hword
    cases item with
    | word text =>
        cases heq
        exact hitem _ hmem word (by simp [Item.tokens])
    | redir type file => cases heq
  · intro redir hredir
    obtain ⟨item, hmem, heq⟩ := List.mem_filterMap.mp hredir
    cases item with
    | word text => cases heq
    | redir type file =>
        cases heq
        exact hitem _ hmem file (by simp [Item.tokens])

theorem Derives.isPipeline {ts : List Token} {stages : List Stage} (h : Derives ts stages)
    (hwords : ∀ text, .word text ∈ ts → IsWord text) : IsPipeline (pipelineTree stages) := by
  induction h with
  | last stage hlen => exact .stage (isStage_tree hlen hwords)
  | @bar stage ts stages hlen rest ih =>
      rw [pipelineTree_cons stage rest.ne_nil]
      refine .pipe (isStage_tree hlen fun text hmem => ?_) (ih fun text hmem => ?_)
      · exact hwords text (List.mem_append_left _ hmem)
      · exact hwords text (List.mem_append_right _ (List.mem_cons_of_mem _ hmem))

theorem isPipeline_of_parsecmd {s : CString} {tree : Cmd} (h : parsecmd s = .ok tree) :
    IsPipeline tree := by
  obtain ⟨stages, hderives, rfl⟩ := (parsecmd_ok_iff s tree).mp h
  exact hderives.isPipeline fun text => isWord_of_mem_tokens s.2

theorem IsPipeline.parsecmd_print {tree : Cmd} (h : IsPipeline tree) :
    parsecmd ⟨printCmd tree, h.nulFree⟩ = .ok tree := by
  obtain ⟨stages, hderives, htree⟩ := h.derives
  exact (parsecmd_ok_iff _ tree).mpr ⟨stages, hderives, htree.symm⟩

/-- Printing a tree of the parser and parsing the text is the identity; every tree
that is returned is such a tree, so parsing, printing and parsing again is parsing. -/
theorem print_parse_identity :
    (∀ tree, (h : IsPipeline tree) → parsecmd ⟨printCmd tree, h.nulFree⟩ = .ok tree) ∧
      ∀ s tree, parsecmd s = .ok tree →
        ∃ h : IsPipeline tree, parsecmd ⟨printCmd tree, h.nulFree⟩ = parsecmd s := by
  refine ⟨fun tree h => h.parsecmd_print, fun s tree hparsed => ?_⟩
  have h := isPipeline_of_parsecmd hparsed
  exact ⟨h, by rw [h.parsecmd_print, hparsed]⟩

theorem isWord_singleton {c : UInt8} (hnul : c ≠ 0) (hc : isWordByte c = true) : IsWord [c] where
  ne_nil := List.cons_ne_nil _ _
  nulFree := by simpa using hnul.symm
  wordBytes := by simpa using hc

/-- `a > f |` and an empty stage after the bar. -/
theorem print_parse_identity_emptyStage :
    ∃ h : IsPipeline (pipecmd (redircmd (.exec (argvOf [[97]])) [102] .output) (.exec (argvOf []))),
      parsecmd ⟨printCmd _, h.nulFree⟩ =
        .ok (pipecmd (redircmd (.exec (argvOf [[97]])) [102] .output) (.exec (argvOf []))) := by
  have hargs : ∀ word ∈ [[(97 : UInt8)]], IsWord word := by
    intro word hword
    obtain rfl := List.mem_singleton.mp hword
    exact isWord_singleton (by decide) (by decide)
  have hfile : IsWord [102] := isWord_singleton (by decide) (by decide)
  have hnone : IsStage (.exec (argvOf [])) :=
    .exec [] (by decide) fun word hword => absurd hword List.not_mem_nil
  have h := IsPipeline.pipe (.redir .output (.exec [[97]] (by decide) hargs) hfile) (.stage hnone)
  exact ⟨h, print_parse_identity.1 _ h⟩

end OsCourse.Shell
