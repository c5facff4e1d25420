import OsCourse.Shell.Grammar

/-! # What the cursor routines read

A cursor is described by the tokens still ahead of it. `gettoken` removes the
first of them, `peek` inspects it and removes nothing; neither depends on how
the blanks around the tokens are spread.
-/

namespace OsCourse.Shell

/-- The cursor `ps` is inside the buffer and has the tokens `ts` ahead of it. -/
structure Yields (buf : Text) (ps : Nat) (ts : List Token) : Prop where
  le : ps ≤ buf.length
  eq : tokens (buf.drop ps) = ts

/-- The return code of `gettoken` for a token. -/
def Token.code : Token → TokenCode
  | .bar => .bar
  | .redir .input => .less
  | .redir .output => .greater
  | .word _ => .word

def Token.isRedir : Token → Bool
  | .redir _ => true
  | _ => false

theorem symbol_inj {c d : UInt8} {token : Token} (hc : symbol c = some token)
    (hd : symbol d = some token) : c = d := by
  simp only [symbol] at hc hd
  split_ifs at hc hd <;> cases hc <;> cases hd <;> simp_all

theorem symbol_ne_word (c : UInt8) (text : Text) : symbol c ≠ some (.word text) := by
  simp only [symbol]
  split_ifs <;> simp

theorem tokens_nil : tokens [] = [] := by
  rw [tokens]

theorem tokens_cons_blank {c : UInt8} (cs : Text) (hc : whitespace.contains c = true) :
    tokens (c :: cs) = tokens cs := by
  rw [tokens, if_pos hc]

theorem tokens_cons_symbol {c : UInt8} (cs : Text) (hc : whitespace.contains c = false)
    {token : Token} (hsymbol : symbol c = some token) :
    tokens (c :: cs) = token :: tokens cs := by
  rw [tokens, if_neg (by simpa using hc), hsymbol]

theorem tokens_cons_word {c : UInt8} (cs : Text) (hc : whitespace.contains c = false)
    (hsymbol : symbol c = none) :
    tokens (c :: cs) =
      .word (c :: cs.takeWhile isWordByte) :: tokens (cs.dropWhile isWordByte) := by
  rw [tokens, if_neg (by simpa using hc), hsymbol]

theorem tokens_length_le (s : Text) : (tokens s).length ≤ s.length := by
  fun_induction tokens s with
  | case1 => simp
  | case2 c cs hc ih => simp only [List.length_cons]; omega
  | case3 c cs hc token hsymbol ih => simp only [List.length_cons]; omega
  | case4 c cs hc hsymbol ih =>
      have hle := (List.dropWhile_sublist (l := cs) isWordByte).length_le
      simp only [List.length_cons]
      omega

theorem Yields.length_le {buf : Text} {ps : Nat} {ts : List Token} (h : Yields buf ps ts) :
    ts.length ≤ buf.length := by
  have hle := tokens_length_le (buf.drop ps)
  rw [h.eq, List.length_drop] at hle
  omega

/-! ## The two byte tests on bytes other than NUL -/

theorem strchr_of_ne_zero (str : Text) {c : UInt8} (hc : c ≠ 0) :
    strchr str c = str.contains c := by
  simp [strchr, hc]

theorem wordTest_eq {c : UInt8} (hc : c ≠ 0) :
    (!strchr whitespace c && !strchr symbols c) = isWordByte c := by
  rw [strchr_of_ne_zero _ hc, strchr_of_ne_zero _ hc, isWordByte]
  congr 1
  by_cases hbar : c = 124
  · subst hbar; rfl
  by_cases hless : c = 60
  · subst hless; rfl
  by_cases hgreater : c = 62
  · subst hgreater; rfl
  simp [symbols, symbol, hbar, hless, hgreater]

theorem takeWhile_congr {s : Text} {p q : UInt8 → Bool} (h : ∀ c ∈ s, p c = q c) :
    s.takeWhile p = s.takeWhile q := by
  induction s with
  | nil => rfl
  | cons c cs ih =>
      rw [List.takeWhile_cons, List.takeWhile_cons, h c List.mem_cons_self,
        ih (fun d hd => h d (List.mem_cons_of_mem _ hd))]

theorem dropWhile_congr {s : Text} {p q : UInt8 → Bool} (h : ∀ c ∈ s, p c = q c) :
    s.dropWhile p = s.dropWhile q := by
  induction s with
  | nil => rfl
  | cons c cs ih =>
      rw [List.dropWhile_cons, List.dropWhile_cons, h c List.mem_cons_self,
        ih (fun d hd => h d (List.mem_cons_of_mem _ hd))]

theorem tokens_dropWhile_blank (s : Text) :
    tokens (s.dropWhile whitespace.contains) = tokens s := by
  induction s with
  | nil => rfl
  | cons c cs ih =>
      cases hc : whitespace.contains c with
      | true => rw [List.dropWhile_cons_of_pos hc, ih, tokens_cons_blank cs hc]
      | false => rw [List.dropWhile_cons_of_neg (Bool.eq_false_iff.mp hc)]

/-! ## The routines -/

section Routines

variable {buf : Text} (hnul : (0 : UInt8) ∉ buf)
include hnul

theorem ne_zero_of_mem_drop {s : Nat} {c : UInt8} (hc : c ∈ buf.drop s) : c ≠ 0 := by
  rintro rfl
  exact hnul (List.mem_of_mem_drop hc)

theorem drop_skipBlanks (ps : Nat) :
    buf.drop (skipBlanks buf ps) = (buf.drop ps).dropWhile whitespace.contains := by
  rw [skipBlanks, Cursor.drop_scan]
  exact dropWhile_congr fun c hc => strchr_of_ne_zero _ (ne_zero_of_mem_drop hnul hc)

theorem Yields.skipBlanks {ps : Nat} {ts : List Token} (h : Yields buf ps ts) :
    Yields buf (skipBlanks buf ps) ts := by
  refine ⟨Cursor.scan_le buf 0 _ ps h.le, ?_⟩
  rw [drop_skipBlanks hnul, tokens_dropWhile_blank, h.eq]

omit hnul in
theorem deref_eq_headD (s : Nat) : deref buf s = (buf.drop s).headD 0 :=
  Cursor.getD_eq_headD buf 0 s

/-- After the blanks comes the end of the buffer or a significant byte. -/
theorem drop_skipBlanks_cases (ps : Nat) :
    buf.drop (skipBlanks buf ps) = [] ∨
      ∃ c cs, buf.drop (skipBlanks buf ps) = c :: cs ∧ c ≠ 0 ∧
        whitespace.contains c = false := by
  cases hdrop : buf.drop (skipBlanks buf ps) with
  | nil => exact Or.inl rfl
  | cons c cs =>
      refine Or.inr ⟨c, cs, rfl, ?_, ?_⟩
      · exact ne_zero_of_mem_drop hnul (hdrop ▸ List.mem_cons_self)
      · rw [drop_skipBlanks hnul] at hdrop
        have hhead := List.head?_dropWhile_not whitespace.contains (buf.drop ps)
        simpa [hdrop] using hhead

omit hnul in
theorem Yields.succ {s : Nat} {c : UInt8} {cs : Text} (hdrop : buf.drop s = c :: cs) :
    Yields buf (s + 1) (tokens cs) := by
  have hlen := congrArg List.length hdrop
  simp only [List.length_drop, List.length_cons] at hlen
  refine ⟨by omega, ?_⟩
  rw [← List.drop_drop, hdrop, List.drop_one, List.tail_cons]

/-- The word starting at a significant byte, and where it ends. -/
theorem skipWord_spec {s : Nat} {c : UInt8} {cs : Text} (hdrop : buf.drop s = c :: cs)
    (hc : isWordByte c = true) :
    Yields buf (skipWord buf s) (tokens (cs.dropWhile isWordByte)) ∧
      mkcopy buf s (skipWord buf s) = c :: cs.takeWhile isWordByte := by
  have hlen := congrArg List.length hdrop
  simp only [List.length_drop, List.length_cons] at hlen
  have hagree : ∀ d ∈ buf.drop s,
      (!strchr whitespace d && !strchr symbols d) = isWordByte d :=
    fun d hd => wordTest_eq (ne_zero_of_mem_drop hnul hd)
  refine ⟨⟨Cursor.scan_le buf 0 _ s (by omega), ?_⟩, ?_⟩
  · rw [skipWord, Cursor.drop_scan, dropWhile_congr hagree, hdrop,
      List.dropWhile_cons_of_pos hc]
  · rw [mkcopy, skipWord, Cursor.take_scan, takeWhile_congr hagree, hdrop,
      List.takeWhile_cons_of_pos hc]

/-- At the end of the input `gettoken` returns 0 and stays at the end. -/
theorem gettoken_nil {ps : Nat} (h : Yields buf ps []) :
    (gettoken buf ps).code = .eof ∧ Yields buf (gettoken buf ps).next [] := by
  have hskip := h.skipBlanks hnul
  rcases drop_skipBlanks_cases hnul ps with hdrop | ⟨c, cs, hdrop, hzero, hblank⟩
  · have hderef : deref buf (skipBlanks buf ps) = 0 := by
      rw [deref_eq_headD, hdrop]
      rfl
    simp only [gettoken, hderef, ↓reduceIte, true_and]
    exact hskip.skipBlanks hnul
  · have htokens := hskip.eq
    rw [hdrop] at htokens
    cases hsymbol : symbol c with
    | some token => simp [tokens_cons_symbol cs hblank hsymbol] at htokens
    | none => simp [tokens_cons_word cs hblank hsymbol] at htokens

/-- `gettoken` returns the code of the next token, delimits its text and
leaves the cursor in front of the remaining ones. -/
theorem gettoken_cons {ps : Nat} {token : Token} {ts : List Token}
    (h : Yields buf ps (token :: ts)) :
    (gettoken buf ps).code = token.code ∧ Yields buf (gettoken buf ps).next ts ∧
      ∀ text, token = .word text →
        mkcopy buf (gettoken buf ps).q (gettoken buf ps).eq = text := by
  have hskip := h.skipBlanks hnul
  have htokens := hskip.eq
  rcases drop_skipBlanks_cases hnul ps with hdrop | ⟨c, cs, hdrop, hzero, hblank⟩
  · rw [hdrop, tokens_nil] at htokens
    cases htokens
  have hderef : deref buf (skipBlanks buf ps) = c := by
    rw [deref_eq_headD, hdrop]
    rfl
  rw [hdrop] at htokens
  cases hsymbol : symbol c with
  | some sym =>
      rw [tokens_cons_symbol cs hblank hsymbol] at htokens
      cases htokens
      have hnext := (Yields.succ hdrop).skipBlanks hnul
      -- the three symbol bytes take the same path through the switch
      by_cases hbar : c = 124
      · subst hbar
        cases hsymbol
        simp only [gettoken, hderef]
        exact ⟨rfl, hnext, fun _ heq => by cases heq⟩
      by_cases hless : c = 60
      · subst hless
        cases hsymbol
        simp only [gettoken, hderef]
        exact ⟨rfl, hnext, fun _ heq => by cases heq⟩
      by_cases hgreater : c = 62
      · subst hgreater
        cases hsymbol
        simp only [gettoken, hderef]
        exact ⟨rfl, hnext, fun _ heq => by cases heq⟩
      simp [symbol, hbar, hless, hgreater] at hsymbol
  | none =>
      rw [tokens_cons_word cs hblank hsymbol] at htokens
      cases htokens
      have hword : isWordByte c = true := by
        rw [isWordByte, hsymbol, hblank]
        rfl
      obtain ⟨hnext, hcopy⟩ := skipWord_spec hnul hdrop hword
      have hbar : c ≠ 124 := by rintro rfl; simp [symbol] at hsymbol
      have hless : c ≠ 60 := by rintro rfl; simp [symbol] at hsymbol
      have hgreater : c ≠ 62 := by rintro rfl; simp [symbol] at hsymbol
      simp only [gettoken, hderef, hzero, hbar, hless, hgreater, ↓reduceIte]
      refine ⟨rfl, hnext.skipBlanks hnul, ?_⟩
      rintro text heq
      cases heq
      exact hcopy

/-- `peek` only skips blanks, and answers by the first byte of the next token. -/
theorem peek_yields {ps : Nat} {ts : List Token} (h : Yields buf ps ts) (toks : Text) :
    Yields buf (peek buf ps toks).2 ts :=
  h.skipBlanks hnul

theorem peek_nil {ps : Nat} (h : Yields buf ps []) (toks : Text) :
    (peek buf ps toks).1 = false := by
  have htokens := (h.skipBlanks hnul).eq
  rcases drop_skipBlanks_cases hnul ps with hdrop | ⟨c, cs, hdrop, hzero, hblank⟩
  · simp only [peek, deref_eq_headD, hdrop]
    rfl
  · rw [hdrop] at htokens
    cases hsymbol : symbol c with
    | some token => simp [tokens_cons_symbol cs hblank hsymbol] at htokens
    | none => simp [tokens_cons_word cs hblank hsymbol] at htokens

/-- With lookahead set `toks`, `peek` is true exactly when the next token is a
symbol whose byte is in `toks`. -/
theorem peek_cons {ps : Nat} {token : Token} {ts : List Token}
    (h : Yields buf ps (token :: ts)) (toks : Text) (htoks : ∀ c ∈ toks, (symbol c).isSome) :
    (peek buf ps toks).1 = toks.any fun c => symbol c = some token := by
  have htokens := (h.skipBlanks hnul).eq
  rcases drop_skipBlanks_cases hnul ps with hdrop | ⟨c, cs, hdrop, hzero, hblank⟩
  · rw [hdrop, tokens_nil] at htokens
    cases htokens
  rw [hdrop] at htokens
  have hpeek : (peek buf ps toks).1 = toks.contains c := by
    simp only [peek, deref_eq_headD, hdrop, List.headD_cons, strchr_of_ne_zero _ hzero]
    simp [hzero]
  rw [hpeek, Bool.eq_iff_iff, List.contains_iff_mem, List.any_eq_true]
  cases hsymbol : symbol c with
  | some sym =>
      rw [tokens_cons_symbol cs hblank hsymbol] at htokens
      cases htokens
      constructor
      · intro hmem
        exact ⟨c, hmem, by simp [hsymbol]⟩
      · rintro ⟨d, hd, heq⟩
        exact symbol_inj (of_decide_eq_true heq) hsymbol ▸ hd
  | none =>
      rw [tokens_cons_word cs hblank hsymbol] at htokens
      cases htokens
      constructor
      · intro hmem
        simpa [hsymbol] using htoks c hmem
      · rintro ⟨d, hd, heq⟩
        exact absurd (of_decide_eq_true heq) (symbol_ne_word d _)

theorem peek_bar {ps : Nat} {token : Token} {ts : List Token}
    (h : Yields buf ps (token :: ts)) : (peek buf ps [124]).1 = decide (token = .bar) := by
  rw [peek_cons hnul h [124] (by simp [symbol])]
  cases token <;> simp [symbol]

theorem peek_redir {ps : Nat} {token : Token} {ts : List Token}
    (h : Yields buf ps (token :: ts)) :
    (peek buf ps [60, 62]).1 = token.isRedir := by
  rw [peek_cons hnul h [60, 62] (by simp [symbol])]
  rcases token with _ | type | text
  · rfl
  · cases type <;> rfl
  · simp [symbol, Token.isRedir]

end Routines

end OsCourse.Shell
