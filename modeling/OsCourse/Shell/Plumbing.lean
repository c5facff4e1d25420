import OsCourse.Shell.Interleaving
import OsCourse.Shell.ParserCorrect

/-! # Descriptors of a pipeline

What every stage of a parsed pipeline finds at its descriptors when it calls
`execvp`. Each `pipe` is followed by the same closing and duplicating on both
sides, so the two descriptors it takes are free again before a stage runs.
-/

namespace OsCourse.Shell

open Transition

/-- A descriptor table seen through its lookups. -/
abbrev FdView := Nat → Option OpenObject

/-- The object a redirection opens. -/
def Direction.open (type : Direction) (file : Text) : OpenObject :=
  .file file { type.mode with creat := true }

/-- What the redirections of a stage put at the descriptor of a direction: the
file of its only redirection in that direction, and of the first one should
there be several. -/
def Stage.redirected (stage : Stage) (type : Direction) : Option OpenObject :=
  (stage.redirs.find? fun redir => redir.1 = type).map fun redir => type.open redir.2

/-- The descriptors of a stage that reads `inp` and writes `out` unless it is
redirected; all descriptors but 0 and 1 are as in `rest`. -/
def plumbed (stage : Stage) (inp out : Option OpenObject) (rest : FdView) : FdView
  | 0 => (stage.redirected .input).or inp
  | 1 => (stage.redirected .output).or out
  | fd + 2 => rest (fd + 2)

/-- The calls of one stage: none without arguments, else one. -/
def stageCalls (stage : Stage) (view : FdView) : List (Argv × FdView) :=
  if stage.words = [] then [] else [(argvOf stage.words, view)]

/-- The calls of a pipeline started with the descriptors `init`, its first stage
reading `inp`: two neighbours are connected by a pipe of their own, numbered
from `n` on, and the last stage writes where descriptor 1 pointed. -/
def pipelineCalls (init : FdView) : Option OpenObject → Nat → List Stage → List (Argv × FdView)
  | _, _, [] => []
  | inp, _, [stage] => stageCalls stage (plumbed stage inp (init 1) init)
  | inp, n, stage :: next :: rest =>
      stageCalls stage (plumbed stage inp (some (.pipeWrite n)) init) ++
        pipelineCalls init (some (.pipeRead n)) (n + 1) (next :: rest)

/-- A call together with its table seen as a function. -/
def ExecCall.view (call : ExecCall) : Argv × FdView := (call.1, call.2.get)

/-! ## One stage -/

/-- The code after a call of `runcmd` is irrelevant. -/
theorem runcmd_next (cmd : Cmd) (next next' : Prog) : runcmd cmd next = runcmd cmd next' := by
  cases cmd <;> rfl

/-- `close` and `open` for one redirection. -/
def redirect (redir : Direction × Text) (fds : FdTable) : FdTable :=
  (fds.clear redir.1.fd).fill (redir.1.open redir.2)

/-- Redirections are carried out from the outside in, the textually last first. -/
theorem calls_runcmd_wrap (cmd : Cmd) (redirs : List (Direction × Text)) (next : Prog)
    (p : Nat × Nat) (fds : FdTable) (n : Nat) :
    (runcmd (wrap cmd redirs) next).calls p fds n =
      (runcmd cmd .exit).calls p (redirs.foldr redirect fds) n := by
  induction redirs using List.reverseRecOn generalizing next fds with
  | nil => rw [runcmd_next _ next .exit]; rfl
  | append_singleton redirs redir ih =>
      rw [wrap_append]
      simp only [wrap, List.foldl_cons, List.foldl_nil, redircmd, runcmd, Prog.calls,
        Operand.eval, List.foldr_append, List.foldr_cons, List.foldr_nil]
      exact ih .exit _

/-- The descriptors a stage can rely on. -/
def StdOpen (fds : FdTable) : Prop := fds.get 0 ≠ none ∧ fds.get 1 ≠ none

/-- With descriptor 0 open, a standard descriptor that is closed is the lowest
free one. -/
theorem lowest_clear {fds : FdTable} (h : fds.get 0 ≠ none) (type : Direction) :
    (fds.clear type.fd).lowest = type.fd := by
  apply SlotTable.lowest_eq
  · simp
  · intro j hj
    cases type with
    | input => simp [Direction.fd] at hj
    | output =>
        obtain rfl : j = 0 := by simp only [Direction.fd] at hj; omega
        simpa [Direction.fd] using h

/-- A redirection replaces its own descriptor and no other. -/
theorem get_redirect {fds : FdTable} (h : fds.get 0 ≠ none) (redir : Direction × Text) (fd : Nat) :
    (redirect redir fds).get fd =
      if fd = redir.1.fd then some (redir.1.open redir.2) else fds.get fd := by
  rw [redirect, SlotTable.get_fill, lowest_clear h, SlotTable.get_clear]
  split <;> rfl

theorem get_zero_foldr_redirect {fds : FdTable} (h : fds.get 0 ≠ none)
    (redirs : List (Direction × Text)) : (redirs.foldr redirect fds).get 0 ≠ none := by
  induction redirs with
  | nil => exact h
  | cons redir redirs ih =>
      rw [List.foldr_cons, get_redirect ih]
      split
      · simp
      · exact ih

theorem get_foldr_redirect {fds : FdTable} (h : fds.get 0 ≠ none) (stage : Stage) :
    (stage.redirs.foldr redirect fds).get = plumbed stage (fds.get 0) (fds.get 1) fds.get := by
  have hplumbed : ∀ redirs : List (Direction × Text), ∀ fd,
      (redirs.foldr redirect fds).get fd =
        if fd = 0 then ((redirs.find? fun redir => redir.1 = Direction.input).map
          fun redir => Direction.input.open redir.2).or (fds.get 0)
        else if fd = 1 then ((redirs.find? fun redir => redir.1 = Direction.output).map
          fun redir => Direction.output.open redir.2).or (fds.get 1)
        else fds.get fd := by
    intro redirs
    induction redirs with
    | nil =>
        intro fd
        simp only [List.foldr_nil, List.find?_nil, Option.map_none, Option.none_or]
        split_ifs with h0 h1
        · rw [h0]
        · rw [h1]
        · rfl
    | cons redir redirs ih =>
        intro fd
        rw [List.foldr_cons, get_redirect (get_zero_foldr_redirect h redirs), ih fd]
        obtain ⟨type, file⟩ := redir
        cases type with
        | input => by_cases h0 : fd = 0 <;> simp [h0, Direction.fd]
        | output =>
            by_cases h1 : fd = 1
            · simp [h1, Direction.fd]
            · simp [h1, Direction.fd]
  funext fd
  rw [hplumbed]
  match fd with
  | 0 => rfl
  | 1 => rfl
  | fd + 2 => simp [plumbed]

theorem argvOf_zero (words : List Text) : (argvOf words)[0] = words[0]? := by
  simp [argvOf]

theorem calls_stage {fds : FdTable} (h : fds.get 0 ≠ none) (stage : Stage) (next : Prog)
    (p : Nat × Nat) (n : Nat) :
    ((runcmd stage.tree next).calls p fds n).map ExecCall.view =
      stageCalls stage (plumbed stage (fds.get 0) (fds.get 1) fds.get) := by
  rw [Stage.tree, calls_runcmd_wrap, ← get_foldr_redirect h stage]
  simp only [runcmd, argvOf_zero, stageCalls]
  cases hwords : stage.words with
  | nil => simp [Prog.calls]
  | cons word words => simp [Prog.calls, ExecCall.view]

/-! ## One pipe -/

section Pipe

variable {fds : FdTable} (h : StdOpen fds) (n : Nat)

/-- The table after `pipe(p)`. -/
def piped (fds : FdTable) (n : Nat) : FdTable :=
  (fds.fill (.pipeRead n)).fill (.pipeWrite n)

include h in
theorem two_le_lowest : 2 ≤ fds.lowest := by
  rcases Nat.lt_or_ge fds.lowest 2 with hlt | hge
  · have hfree := fds.get_lowest
    obtain heq | heq : fds.lowest = 0 ∨ fds.lowest = 1 := by omega
    · exact absurd (heq ▸ hfree) h.1
    · exact absurd (heq ▸ hfree) h.2
  · exact hge

variable (fds) in
theorem lowest_lt_lowest_fill : fds.lowest < (fds.fill (.pipeRead n)).lowest := by
  have hfree := (fds.fill (.pipeRead n)).get_lowest
  rw [SlotTable.get_fill] at hfree
  split at hfree
  · cases hfree
  next hne =>
    rcases Nat.lt_trichotomy (fds.fill (.pipeRead n)).lowest fds.lowest with hlt | heq | hgt
    · exact absurd hfree (fds.get_ne_none_of_lt hlt)
    · exact absurd heq hne
    · exact hgt

/-- Both descriptors of the pipe were free before. -/
theorem get_lowest_fill : fds.get (fds.fill (.pipeRead n)).lowest = none := by
  have hfree := (fds.fill (.pipeRead n)).get_lowest
  rwa [SlotTable.get_fill, if_neg (by have := lowest_lt_lowest_fill fds n; omega)]
    at hfree

include h in
theorem StdOpen.piped : StdOpen (piped fds n) := by
  have hr := two_le_lowest h
  have hw := lowest_lt_lowest_fill fds n
  constructor
  · simpa [OsCourse.Shell.piped, show 0 ≠ fds.lowest by omega,
      show 0 ≠ (fds.fill (.pipeRead n)).lowest by omega] using h.1
  · simpa [OsCourse.Shell.piped, show 1 ≠ fds.lowest by omega,
      show 1 ≠ (fds.fill (.pipeRead n)).lowest by omega] using h.2

/-- One side of a pipe: `close(std)`, `dup` of one end, `close` of both ends. -/
def connect (fds : FdTable) (std fd first second : Nat) : FdTable :=
  ((Process.dup (fds.clear std) fd).clear first).clear second

include h in
/-- A side of a pipe gets one of the ends at its standard descriptor and keeps
everything else, whichever end is closed first. -/
theorem get_connect (type : Direction) {fd first second : Nat} {obj : OpenObject}
    (hobj : (piped fds n).get fd = some obj) (hfd : 2 ≤ fd)
    (hends : (first = fds.lowest ∧ second = (fds.fill (.pipeRead n)).lowest) ∨
      (first = (fds.fill (.pipeRead n)).lowest ∧ second = fds.lowest)) (j : Nat) :
    (connect (piped fds n) type.fd fd first second).get j =
      if j = type.fd then some obj else fds.get j := by
  have hr := two_le_lowest h
  have hw := lowest_lt_lowest_fill fds n
  have hstd : type.fd < 2 := by cases type <;> decide
  have hdup : Process.dup ((piped fds n).clear type.fd) fd =
      ((piped fds n).clear type.fd).fill obj := by
    simp [Process.dup, show fd ≠ type.fd by omega, hobj]
  have hclosed : (connect (piped fds n) type.fd fd first second).get j =
      if j = fds.lowest ∨ j = (fds.fill (.pipeRead n)).lowest then none
      else if j = type.fd then some obj else (piped fds n).get j := by
    rw [connect, hdup]
    simp only [SlotTable.get_clear, SlotTable.get_fill, lowest_clear (h.piped n).1]
    rcases hends with ⟨rfl, rfl⟩ | ⟨rfl, rfl⟩ <;> split_ifs <;> simp_all
  rw [hclosed]
  by_cases hends' : j = fds.lowest ∨ j = (fds.fill (.pipeRead n)).lowest
  · rw [if_pos hends', if_neg (by omega)]
    rcases hends' with rfl | rfl
    · exact fds.get_lowest.symm
    · exact (get_lowest_fill n).symm
  · obtain ⟨hjr, hjw⟩ := not_or.mp hends'
    rw [if_neg hends']
    simp only [piped, SlotTable.get_fill, hjr, hjw, ↓reduceIte]

end Pipe

/-! ## The pipeline -/

theorem plumbed_congr {stage : Stage} {inp out : Option OpenObject} {view view' : FdView}
    (h : ∀ fd, 2 ≤ fd → view fd = view' fd) :
    plumbed stage inp out view = plumbed stage inp out view' := by
  funext fd
  match fd with
  | 0 => rfl
  | 1 => rfl
  | fd + 2 => exact h (fd + 2) (by omega)

theorem pipelineCalls_congr {view view' : FdView} (hout : view 1 = view' 1)
    (h : ∀ fd, 2 ≤ fd → view fd = view' fd) (inp : Option OpenObject) (n : Nat)
    (stages : List Stage) : pipelineCalls view inp n stages = pipelineCalls view' inp n stages := by
  induction stages generalizing inp n with
  | nil => rfl
  | cons stage stages ih =>
      cases stages with
      | nil => simp only [pipelineCalls, hout, plumbed_congr h]
      | cons next rest => simp only [pipelineCalls, plumbed_congr h, ih]

/-- The calls of a whole pipeline, by the code of its two sides at every pipe. -/
theorem calls_pipeline {fds : FdTable} (h : StdOpen fds) {stages : List Stage}
    (hstages : stages ≠ []) (next : Prog) (p : Nat × Nat) (n : Nat) :
    ((runcmd (pipelineTree stages) next).calls p fds n).map ExecCall.view =
      pipelineCalls fds.get (fds.get 0) n stages := by
  induction stages generalizing fds next p n with
  | nil => exact absurd rfl hstages
  | cons stage stages ih =>
      cases stages with
      | nil => exact calls_stage h.1 stage next p n
      | cons second rest =>
          have hr := two_le_lowest h
          have hw := lowest_lt_lowest_fill fds n
          -- the child: the write end becomes descriptor 1
          have hwrite : (piped fds n).get (fds.fill (.pipeRead n)).lowest =
              some (.pipeWrite n) := by simp [piped]
          have hchild : ∀ j, (connect (piped fds n) 1 (fds.fill (.pipeRead n)).lowest
              fds.lowest (fds.fill (.pipeRead n)).lowest).get j =
                if j = 1 then some (.pipeWrite n) else fds.get j :=
            get_connect h n .output hwrite (by omega) (Or.inl ⟨rfl, rfl⟩)
          -- the parent: the read end becomes descriptor 0
          have hread : (piped fds n).get fds.lowest = some (.pipeRead n) := by
            simp [piped, show fds.lowest ≠ (fds.fill (.pipeRead n)).lowest by omega]
          have hparent : ∀ j, (connect (piped fds n) 0 fds.lowest
              (fds.fill (.pipeRead n)).lowest fds.lowest).get j =
                if j = 0 then some (.pipeRead n) else fds.get j :=
            get_connect h n .input hread (by omega) (Or.inr ⟨rfl, rfl⟩)
          have hchildOpen : StdOpen (connect (piped fds n) 1 (fds.fill (.pipeRead n)).lowest
              fds.lowest (fds.fill (.pipeRead n)).lowest) := by
            simp only [StdOpen, hchild]
            exact ⟨h.1, by simp⟩
          have hparentOpen : StdOpen (connect (piped fds n) 0 fds.lowest
              (fds.fill (.pipeRead n)).lowest fds.lowest) := by
            simp only [StdOpen, hparent]
            exact ⟨by simp, h.2⟩
          rw [pipelineTree_cons stage (List.cons_ne_nil _ _)]
          simp only [pipecmd, runcmd, Prog.calls, Operand.eval, List.map_append, pipelineCalls]
          congr 1
          · refine (calls_stage hchildOpen.1 stage _ _ _).trans ?_
            rw [hchild, hchild, if_neg (by omega), if_pos rfl]
            congr 1
            apply plumbed_congr
            intro fd hfd
            rw [hchild, if_neg (by omega)]
          · refine (ih hparentOpen (List.cons_ne_nil _ _) _ _ _).trans ?_
            rw [hparent, if_pos rfl]
            apply pipelineCalls_congr
            · rw [hparent, if_neg (by omega)]
            · intro fd hfd
              rw [hparent, if_neg (by omega)]

/-! ## The code of a parsed pipeline -/

theorem runcmd_stage_regular (stage : Stage) (next : Prog) :
    (runcmd stage.tree next).PipeFree ∧ (runcmd stage.tree next).Regular := by
  suffices ∀ (argv : Argv) (redirs : List (Direction × Text)) (next : Prog),
      (runcmd (wrap (.exec argv) redirs) next).PipeFree ∧
        (runcmd (wrap (.exec argv) redirs) next).Regular from this _ _ next
  intro argv redirs
  induction redirs using List.reverseRecOn with
  | nil =>
      intro next
      simp only [wrap, List.foldl_nil, runcmd]
      split <;> simp [Prog.PipeFree, Prog.Regular]
  | append_singleton redirs redir ih =>
      intro next
      rw [wrap_append]
      simpa only [wrap, List.foldl_cons, List.foldl_nil, redircmd, runcmd, Prog.PipeFree,
        Prog.Regular] using ih .exit

theorem runcmd_pipeline_regular {stages : List Stage} (hstages : stages ≠ []) (next : Prog) :
    (runcmd (pipelineTree stages) next).Regular := by
  induction stages generalizing next with
  | nil => exact absurd rfl hstages
  | cons stage stages ih =>
      cases stages with
      | nil => exact (runcmd_stage_regular stage next).2
      | cons second rest =>
          have hstage := runcmd_stage_regular stage .exit
          rw [pipelineTree_cons stage (List.cons_ne_nil _ _)]
          exact ⟨hstage.1, hstage.2, ih (List.cons_ne_nil _ _) _⟩

/-! ## Write ends -/

/-- The two calls hold no write end of a pipe numbered from `n` on in common. -/
def WriteEndsApart (n : Nat) (first second : Argv × FdView) : Prop :=
  ∀ fd fd' id, n ≤ id → first.2 fd = some (.pipeWrite id) → second.2 fd' ≠ some (.pipeWrite id)

theorem WriteEndsApart.symm {n : Nat} {first second : Argv × FdView}
    (h : WriteEndsApart n first second) : WriteEndsApart n second first :=
  fun fd fd' id hid hsecond hfirst => h fd' fd id hid hfirst hsecond

theorem redirected_ne_pipeWrite (stage : Stage) (type : Direction) (id : Nat) :
    stage.redirected type ≠ some (.pipeWrite id) := by
  simp [Stage.redirected, Direction.open]

theorem plumbed_pipeWrite {stage : Stage} {inp out : Option OpenObject} {view : FdView}
    {fd id : Nat} (h : plumbed stage inp out view fd = some (.pipeWrite id)) :
    inp = some (.pipeWrite id) ∨ out = some (.pipeWrite id) ∨
      ∃ fd, view fd = some (.pipeWrite id) := by
  match fd with
  | 0 =>
      rcases Option.or_eq_some_iff.mp h with hredir | ⟨-, hinp⟩
      · exact absurd hredir (redirected_ne_pipeWrite _ _ _)
      · exact Or.inl hinp
  | 1 =>
      rcases Option.or_eq_some_iff.mp h with hredir | ⟨-, hout⟩
      · exact absurd hredir (redirected_ne_pipeWrite _ _ _)
      · exact Or.inr (Or.inl hout)
  | fd + 2 => exact Or.inr (Or.inr ⟨fd + 2, h⟩)

theorem mem_stageCalls {stage : Stage} {view : FdView} {call : Argv × FdView}
    (h : call ∈ stageCalls stage view) : call.2 = view := by
  unfold stageCalls at h
  split at h
  · cases h
  · rw [List.mem_singleton.mp h]

section WriteEnds

variable {init : FdView} {base : Nat} (hinit : ∀ fd id, init fd = some (.pipeWrite id) → id < base)
include hinit

/-- A pipeline numbering its pipes from `n` on holds no write end of an earlier
one but those it started with. -/
theorem pipeWrite_of_mem_pipelineCalls {stages : List Stage} {inp : Option OpenObject} {n : Nat}
    (hinp : ∀ id, inp = some (.pipeWrite id) → id < base) {call : Argv × FdView}
    (hcall : call ∈ pipelineCalls init inp n stages) {fd id : Nat}
    (h : call.2 fd = some (.pipeWrite id)) : id < base ∨ n ≤ id := by
  induction stages generalizing inp n with
  | nil => cases hcall
  | cons stage stages ih =>
      cases stages with
      | nil =>
          rw [mem_stageCalls hcall] at h
          rcases plumbed_pipeWrite h with h | h | ⟨fd, h⟩
          · exact Or.inl (hinp id h)
          · exact Or.inl (hinit 1 id h)
          · exact Or.inl (hinit fd id h)
      | cons second rest =>
          rcases List.mem_append.mp hcall with hcall | hcall
          · rw [mem_stageCalls hcall] at h
            rcases plumbed_pipeWrite h with h | h | ⟨fd, h⟩
            · exact Or.inl (hinp id h)
            · cases h
              exact Or.inr (Nat.le_refl _)
            · exact Or.inl (hinit fd id h)
          · exact (ih (by simp) hcall).imp_right (by omega)

theorem pipelineCalls_writeEndsApart {stages : List Stage} {inp : Option OpenObject} {n : Nat}
    (hinp : ∀ id, inp = some (.pipeWrite id) → id < base) :
    (pipelineCalls init inp n stages).Pairwise (WriteEndsApart base) := by
  induction stages generalizing inp n with
  | nil => exact .nil
  | cons stage stages ih =>
      have hstage : ∀ view, (stageCalls stage view).Pairwise (WriteEndsApart base) := by
        intro view
        unfold stageCalls
        split <;> simp
      cases stages with
      | nil => exact hstage _
      | cons second rest =>
          refine List.pairwise_append.mpr ⟨hstage _, ih (by simp), ?_⟩
          intro first hfirst later hlater fd fd' id hid hwrite hother
          have hlater' := pipeWrite_of_mem_pipelineCalls hinit (by simp) hlater hother
          rw [mem_stageCalls hfirst] at hwrite
          rcases plumbed_pipeWrite hwrite with h | h | ⟨fd, h⟩
          · have := hinp id h
            omega
          · cases h
            omega
          · have := hinit fd id h
            omega

end WriteEnds

/-- Every schedule in which all calls but `execvp` succeed can be completed, and
a completed one has made exactly the calls of the pipeline. -/
def Plumbing (stages : List Stage) (start : System) (init : FdView) (n : Nat) : Prop :=
  ∀ history sys, Reach System.step callsSucceed start history sys →
    (∃ more last, Reach System.step callsSucceed start (history ++ more) last ∧
      last.Finished) ∧
    (sys.Finished →
      ((execCalls history).map ExecCall.view).Perm (pipelineCalls init (init 0) n stages) ∧
      ((execCalls history).map ExecCall.view).Pairwise (WriteEndsApart n))

/-- Running a parsed command connects its stages: with descriptors 0 and 1 open
at the start and pipes numbered from `n` on, every stage with arguments calls
`execvp` once, with the initial descriptors except for 0 and 1. -/
theorem runcmd_plumbing (s : CString) (tree : Cmd) (hparse : parsecmd s = .ok tree)
    (p : Nat × Nat) (fds : FdTable) (n : Nat) (hstd : StdOpen fds)
    (hfresh : ∀ fd id, fds.get fd = some (.pipeWrite id) → id < n) :
    ∃ stages, Derives (tokens s.1) stages ∧ tree = pipelineTree stages ∧
      Plumbing stages (startCmd tree p fds n) fds.get n := by
  obtain ⟨stages, hderives, rfl⟩ := (parsecmd_ok_iff s tree).mp hparse
  refine ⟨stages, hderives, rfl, ?_⟩
  intro history sys hreach
  have hregular := runcmd_pipeline_regular hderives.ne_nil .exit
  have hbalanced := hreach.invariant (Balanced.start none _ p fds n hregular)
    (fun _ _ _ _ _ hinv hok hstep => hinv.step hok hstep)
  refine ⟨hbalanced.exists_finished hreach, fun hfinished => ?_⟩
  have hcalls := Multiset.coe_eq_coe.mp (hbalanced.finished hfinished)
  have hperm := hcalls.map ExecCall.view
  rw [calls_pipeline hstd hderives.ne_nil] at hperm
  refine ⟨hperm, ?_⟩
  rw [hperm.pairwise_iff fun {_ _} h => WriteEndsApart.symm h]
  exact pipelineCalls_writeEndsApart hfresh (hfresh 0)

/-- `a<f|b`. -/
def redirectedPair : CString := ⟨[97, 60, 102, 124, 98], by decide⟩

/-- A terminal at descriptors 0, 1 and 2. -/
def terminalFds : FdTable := ⟨[some (.inherited 0), some (.inherited 0), some (.inherited 0)]⟩

theorem runcmd_plumbing_redirectedPair :
    ∃ stages, Derives (tokens redirectedPair.1) stages ∧
      pipelineTree [[.word [97], .redir .input [102]], [.word [98]]] = pipelineTree stages ∧
      Plumbing stages (startCmd (pipelineTree stages) (0, 0) terminalFds 0) terminalFds.get 0 := by
  obtain ⟨stages, hderives, htree, hplumbing⟩ := runcmd_plumbing redirectedPair
    (pipelineTree [[.word [97], .redir .input [102]], [.word [98]]]) (by decide) (0, 0)
    terminalFds 0 (by simp [StdOpen, terminalFds, SlotTable.get]) (by
      intro fd id
      match fd with
      | 0 => simp [terminalFds, SlotTable.get]
      | 1 => simp [terminalFds, SlotTable.get]
      | 2 => simp [terminalFds, SlotTable.get]
      | fd + 3 => simp [terminalFds, SlotTable.get])
  exact ⟨stages, hderives, htree, htree ▸ hplumbing⟩

end OsCourse.Shell
