import OsCourse.Shell.Commands

/-! # All that the lines ask for

When the calls before it succeed, every stage of every line comes to its `execvp`.
The process that creates the pipes of a line is a child of `main`, which waits for it
before it reads on; so the lines number their pipes one after the other, although
other processes of earlier lines may still be running.
-/

namespace OsCourse.Shell

open Transition

/-- Everything but `execvp` succeeds. -/
def Session.callsSucceed {Dir File : Type*} (s : Session Dir File) : SharedAction File → Prop
  | .session (.fork ok _) => ok = true
  | .session (.process action) => OsCourse.Shell.callsSucceed s.sys action
  | _ => True

/-! ## Pipes that are still to come -/

namespace Prog

/-- The pipes the code and its children create when every call succeeds. -/
def pipes : Prog → Nat
  | .close _ next | .dup _ next | .openFile _ _ _ next | .wait next => next.pipes
  | .pipe next => next.pipes + 1
  | .fork child parent => child.pipes + parent.pipes
  | .execvp _ _ | .exit => 0

theorem PipeFree.pipes_eq {code : Prog} (h : code.PipeFree) : code.pipes = 0 := by
  induction code with
  | close fd next ih => exact ih h
  | dup fd next ih => exact ih h
  | openFile file flags perm next ih => exact ih h
  | wait next ih => exact ih h
  | pipe next ih => exact h.elim
  | fork child parent ihc ihp => rw [pipes, ihc h.1, ihp h.2]
  | execvp argv next ih => rfl
  | exit => rfl

theorem PipeFree.of_mem {code : Prog} (h : code.PipeFree) :
    ∀ next ∈ code.continuations, next.PipeFree := by
  intro next hnext
  cases code with
  | pipe _ => exact h.elim
  | fork child parent =>
      rcases List.mem_cons.mp hnext with rfl | hnext
      · exact h.1
      · exact List.mem_singleton.mp hnext ▸ h.2
  | exit => cases hnext
  | _ =>
      obtain rfl := List.mem_singleton.mp hnext
      exact h

end Prog

namespace Process

def pipes (pr : Process) : Nat :=
  match pr.status with
  | .running code => code.pipes
  | _ => 0

theorem PipeFree.pipes_eq {pr : Process} (h : pr.PipeFree) : pr.pipes = 0 := by
  unfold pipes
  split
  next code hstatus => exact (h code hstatus).pipes_eq
  next => rfl

end Process

namespace System

def pipes (sys : System) : Nat := (sys.procs.map Process.pipes).sum

variable {sys : System} {i : Nat} {pr : Process}

theorem pipes_setProc (hpr : sys.procs[i]? = some pr) (pr' : Process) :
    (sys.setProc i pr').pipes + pr.pipes = sys.pipes + pr'.pipes :=
  sum_map_set Process.pipes hpr pr'

theorem pipes_addProc (child : Process) :
    ({ sys with procs := sys.procs ++ [child] } : System).pipes = sys.pipes + child.pipes := by
  simp [pipes]

theorem pipes_eq_zero (h : ∀ pr ∈ sys.procs, pr.PipeFree) : sys.pipes = 0 := by
  apply List.sum_eq_zero
  intro n hn
  obtain ⟨pr, hpr, rfl⟩ := List.mem_map.mp hn
  exact (h pr hpr).pipes_eq

/-- Every pipe that is created takes the next number. -/
theorem pipes_call {code : Prog} {ok : Bool} {sys' : System} {events : List SysEvent}
    (hpr : sys.procs[i]? = some pr) (hstatus : pr.status = .running code)
    (hregular : code.Regular) (hok : ok = true ∨ ∃ argv next, code = .execvp argv next)
    (hcall : sys.call i pr ok code = some (sys', events)) :
    sys'.nextPipe + sys'.pipes = sys.nextPipe + sys.pipes := by
  have hset : ∀ pr' : Process, pr'.pipes = pr.pipes → (sys.setProc i pr').pipes = sys.pipes := by
    intro pr' heq
    have hsum := pipes_setProc hpr pr'
    omega
  have hpipes : pr.pipes = code.pipes := by simp only [Process.pipes, hstatus]
  cases code with
  | close fd next =>
      cases hcall
      exact congrArg (sys.nextPipe + ·) (hset (pr.goOn next _) hpipes.symm)
  | dup fd next =>
      cases hcall
      exact congrArg (sys.nextPipe + ·) (hset (pr.goOn next _) hpipes.symm)
  | openFile file flags perm next =>
      cases hcall
      exact congrArg (sys.nextPipe + ·) (hset (pr.goOn next _) hpipes.symm)
  | pipe next =>
      obtain rfl : ok = true := by simpa using hok
      cases hcall
      have hsum := pipes_setProc hpr (pr.makePipe sys.nextPipe next)
      have hnew : (pr.makePipe sys.nextPipe next).pipes = next.pipes := rfl
      simp only [Prog.pipes] at hpipes
      simp only [System.pipes] at hsum ⊢
      omega
  | fork child parent =>
      obtain rfl : ok = true := by simpa using hok
      cases hcall
      have hsum := pipes_setProc hpr (pr.goOn parent pr.fds)
      have hnew : (pr.goOn parent pr.fds).pipes = parent.pipes := rfl
      simp only [Prog.pipes] at hpipes
      simp only [System.pipes, List.map_append, List.map_cons, List.map_nil, List.sum_append,
        List.sum_singleton] at hsum ⊢
      have hchild : Process.pipes { pr with parent := some i, status := .running child } =
        child.pipes := rfl
      simp only [System.setProc] at hsum ⊢
      omega
  | execvp argv next =>
      cases hcall
      obtain rfl : next = .exit := hregular
      exact congrArg (sys.nextPipe + ·) (hset _ (by cases ok <;> exact hpipes.symm))
  | wait next => exact hregular.elim
  | exit =>
      cases hcall
      exact congrArg (sys.nextPipe + ·) (hset { pr with status := .terminated } hpipes.symm)

theorem pipes_step {sys' : System} {action : SysAction} {events : List SysEvent}
    (hregular : ∀ pr ∈ sys.procs, pr.Regular) (hok : OsCourse.Shell.callsSucceed sys action)
    (hstep : sys.step action = some (sys', events)) :
    sys'.nextPipe + sys'.pipes = sys.nextPipe + sys.pipes := by
  cases action with
  | call i ok =>
      obtain ⟨pr, code, hpr, hstatus, hcall⟩ := step_call_eq_some hstep
      refine pipes_call hpr hstatus (hregular pr (List.mem_of_getElem? hpr) code hstatus) ?_ hcall
      refine hok.imp_right ?_
      rintro ⟨other, hother, argv, next, hexec⟩
      cases hpr.symm.trans hother
      cases hstatus.symm.trans hexec
      exact ⟨argv, next, rfl⟩
  | reap i child =>
      -- regular code never waits
      simp only [step] at hstep
      split at hstep
      next pr ch hpr hch =>
        split at hstep
        next next hstatus _ =>
          exact (hregular pr (List.mem_of_getElem? hpr) _ hstatus).elim
        next => cases hstep
      next => cases hstep
  | terminate i =>
      simp only [step] at hstep
      split at hstep
      next pr hpr =>
        split at hstep
        next argv hstatus =>
          cases hstep
          have hsum := pipes_setProc hpr { pr with status := .terminated }
          simp only [Process.pipes, hstatus] at hsum
          simp only [System.setProc] at hsum ⊢
          omega
        next => cases hstep
      next => cases hstep

end System

theorem runcmd_stage_pipes (stage : Stage) (next : Prog) : (runcmd stage.tree next).pipes = 0 :=
  (runcmd_stage_regular stage next).1.pipes_eq

/-- One pipe between two neighbours. -/
theorem runcmd_pipeline_pipes {stages : List Stage} (hstages : stages ≠ []) (next : Prog) :
    (runcmd (pipelineTree stages) next).pipes = stages.length - 1 := by
  induction stages generalizing next with
  | nil => exact absurd rfl hstages
  | cons stage stages ih =>
      cases stages with
      | nil => exact runcmd_stage_pipes stage next
      | cons second rest =>
          rw [pipelineTree_cons stage (List.cons_ne_nil _ _)]
          simp only [pipecmd, runcmd, Prog.pipes, runcmd_stage_pipes,
            ih (List.cons_ne_nil _ _), List.length_cons]
          omega

theorem childCode_regular (line : CString) : (childCode line).Regular := by
  rcases childCode_cases line with ⟨stages, hderives, heq⟩ | ⟨-, heq⟩
  · rw [heq]
    exact runcmd_pipeline_regular hderives.ne_nil .exit
  · rw [heq]
    trivial

theorem childCode_calls (line : CString) {fds : FdTable} (hstd : StdOpen fds) (p : Nat × Nat)
    (n : Nat) :
    LineCalls fds.get n line.1 (((childCode line).calls p fds n).map ExecCall.view)
      (n + (childCode line).pipes) := by
  rcases childCode_cases line with ⟨stages, hderives, heq⟩ | ⟨hrejected, heq⟩
  · rw [heq, calls_pipeline hstd hderives.ne_nil, runcmd_pipeline_pipes hderives.ne_nil]
    exact .pipeline hderives
  · rw [heq]
    exact .rejected hrejected

/-! ## One process creates pipes at a time -/

/-- Only a child of `main` creates pipes, and there is one at a time: `main` reads on
when it has waited for it. -/
structure Tended (main : MainPhase) (procs : List Process) : Prop where
  children : ∀ pr ∈ procs, pr.parent ≠ none → pr.PipeFree
  alone : ∀ (i j : Nat) (pr pr' : Process), procs[i]? = some pr → procs[j]? = some pr' →
    pr.parent = none → pr'.parent = none → pr.status ≠ .reaped → pr'.status ≠ .reaped → i = j
  reaped : main ≠ .wait → ∀ pr ∈ procs, pr.parent = none → pr.status = .reaped

section Tended

variable {main : MainPhase} {procs : List Process} (h : Tended main procs)
include h

/-- No process creates pipes while `main` is not waiting. -/
theorem Tended.pipeFree (hmain : main ≠ .wait) : ∀ pr ∈ procs, pr.PipeFree := by
  intro pr hpr
  by_cases hparent : pr.parent = none
  · intro code hcode
    rw [h.reaped hmain pr hpr hparent] at hcode
    cases hcode
  · exact h.children pr hpr hparent

theorem Tended.goOn {main' : MainPhase} (hmain : main ≠ .wait) : Tended main' procs where
  children := h.children
  alone := h.alone
  reaped _ := h.reaped hmain

/-- A process that has not been waited for goes on. -/
theorem Tended.set {i : Nat} {pr : Process} (pr' : Process) (hpr : procs[i]? = some pr)
    (hstatus : pr.status ≠ .reaped) (hparent : pr'.parent = pr.parent)
    (hfree : pr.PipeFree → pr'.PipeFree) : Tended main (procs.set i pr') := by
  have hlt := (List.getElem?_eq_some_iff.mp hpr).1
  -- the process at a position before
  have hold : ∀ (j : Nat) (other : Process), (procs.set i pr')[j]? = some other →
      ∃ old, procs[j]? = some old ∧ old.parent = other.parent ∧
        (other.status ≠ .reaped → old.status ≠ .reaped) := by
    intro j other hother
    by_cases hij : i = j
    · subst hij
      rw [List.getElem?_set_self hlt] at hother
      cases hother
      exact ⟨pr, hpr, hparent.symm, fun _ => hstatus⟩
    · rw [List.getElem?_set_ne hij] at hother
      exact ⟨other, hother, rfl, id⟩
  refine ⟨?_, ?_, ?_⟩
  · intro other hother hne
    rcases List.mem_or_eq_of_mem_set hother with hmem | rfl
    · exact h.children other hmem hne
    · exact hfree (h.children pr (List.mem_of_getElem? hpr) (hparent ▸ hne))
  · intro j k a b ha hb hpa hpb hsa hsb
    obtain ⟨a', ha', hpa', hsa'⟩ := hold j a ha
    obtain ⟨b', hb', hpb', hsb'⟩ := hold k b hb
    exact h.alone j k a' b' ha' hb' (hpa'.trans hpa) (hpb'.trans hpb) (hsa' hsa) (hsb' hsb)
  · intro hmain other hother hnone
    rcases List.mem_or_eq_of_mem_set hother with hmem | rfl
    · exact h.reaped hmain other hmem hnone
    · have hreaped := h.reaped hmain pr (List.mem_of_getElem? hpr) (hparent ▸ hnone)
      exact absurd hreaped hstatus

theorem Tended.fork {child : Process} (hparent : child.parent ≠ none) (hfree : child.PipeFree) :
    Tended main (procs ++ [child]) := by
  have hold : ∀ (j : Nat) (pr : Process), (procs ++ [child])[j]? = some pr → pr.parent = none →
      procs[j]? = some pr := by
    intro j pr hpr hnone
    by_cases hj : j < procs.length
    · rwa [List.getElem?_append_left hj] at hpr
    · rw [List.getElem?_append_right (by omega)] at hpr
      obtain rfl := List.mem_singleton.mp (List.mem_of_getElem? hpr)
      exact absurd hnone hparent
  refine ⟨?_, ?_, ?_⟩
  · intro pr hpr hne
    rcases List.mem_append.mp hpr with hmem | hmem
    · exact h.children pr hmem hne
    · rwa [List.mem_singleton.mp hmem]
  · intro j k a b ha hb hpa hpb
    exact h.alone j k a b (hold j a ha hpa) (hold k b hb hpb) hpa hpb
  · intro hmain pr hpr hnone
    obtain ⟨j, hj⟩ := List.mem_iff_getElem?.mp hpr
    exact h.reaped hmain pr (List.mem_of_getElem? (hold j pr hj hnone)) hnone

/-- `main` forks when all its children have been waited for. -/
theorem Tended.forkMain {child : Process} (hmain : main ≠ .wait) (hparent : child.parent = none) :
    Tended .wait (procs ++ [child]) := by
  have hlast : ∀ (j : Nat) (pr : Process), (procs ++ [child])[j]? = some pr → pr.parent = none →
      pr.status ≠ .reaped → j = procs.length := by
    intro j pr hpr hnone hstatus
    have hlt := (List.getElem?_eq_some_iff.mp hpr).1
    rw [List.length_append, List.length_singleton] at hlt
    by_contra hne
    rw [List.getElem?_append_left (by omega)] at hpr
    exact hstatus (h.reaped hmain pr (List.mem_of_getElem? hpr) hnone)
  refine ⟨?_, ?_, fun hne => absurd rfl hne⟩
  · intro pr hpr hne
    rcases List.mem_append.mp hpr with hmem | hmem
    · exact h.children pr hmem hne
    · rw [List.mem_singleton.mp hmem, hparent] at hne
      exact absurd rfl hne
  · intro j k a b ha hb hpa hpb hsa hsb
    rw [hlast j a ha hpa hsa, hlast k b hb hpb hsb]

/-- The child that `main` collects was the only one left. -/
theorem Tended.reap {i : Nat} {ch : Process} (hch : procs[i]? = some ch) (hnone : ch.parent = none)
    (hstatus : ch.status = .terminated) :
    Tended .getcmd (procs.set i { ch with status := .reaped }) := by
  have hset := h.set { ch with status := .reaped } hch (by simp [hstatus]) rfl
    fun _ code hcode => by cases hcode
  refine ⟨hset.children, hset.alone, fun _ pr hpr hparent => ?_⟩
  by_contra hpr'
  obtain ⟨j, hj⟩ := List.mem_iff_getElem?.mp hpr
  by_cases hij : i = j
  · subst hij
    rw [List.getElem?_set_self (List.getElem?_eq_some_iff.mp hch).1] at hj
    cases hj
    exact hpr' rfl
  · rw [List.getElem?_set_ne hij] at hj
    exact hij (h.alone i j ch pr hch hj hnone hparent (by simp [hstatus]) hpr')

end Tended

theorem Tended.process {main : MainPhase} {sys sys' : System} {action : SysAction}
    {events : List SysEvent} (h : Tended main sys.procs) (hregular : ∀ pr ∈ sys.procs, pr.Regular)
    (hstep : sys.step action = some (sys', events)) : Tended main sys'.procs := by
  cases System.step_inversion hstep with
  | @goOn i pr pr' code next pipes hpr hstatus hnext hgoes hparent =>
      refine h.set pr' hpr (by simp [hstatus]) hparent fun hfree => ?_
      exact Process.runs_of_running hgoes ((hfree code hstatus).of_mem next hnext)
  | @fork i pr child parent hpr hstatus =>
      have hcode := hregular pr (List.mem_of_getElem? hpr) _ hstatus
      have hset := h.set (pr.goOn parent pr.fds) hpr (by simp [hstatus]) rfl
        fun hfree => Process.runs_of_running rfl (hfree _ hstatus).2
      exact hset.fork (by simp) (Process.runs_of_running rfl hcode.1)
  | @stop i pr pr' hpr hactive hstopped hparent =>
      exact h.set pr' hpr hactive.2 hparent fun _ => Process.runs_of_stopped hstopped
  | @reap i child pr ch next hpr hstatus hch hdone hparent =>
      exact (hregular pr (List.mem_of_getElem? hpr) _ hstatus).elim

/-- A process is added to others that create no pipes. -/
theorem Balanced.addProc {total : Multiset ExecCall} {history : List SysEvent} {sys : System}
    (h : Balanced total history sys) (hfree : ∀ pr ∈ sys.procs, pr.PipeFree) {child : Process}
    (hregular : child.Regular) :
    Balanced (total + (child.calls sys.nextPipe : Multiset ExecCall)) history
      { sys with procs := sys.procs ++ [child] } := by
  refine ⟨?_, ?_, ?_⟩
  · rw [System.calls_addProc, ← add_assoc, h.balance]
  · intro pr hpr
    rcases List.mem_append.mp hpr with hmem | hmem
    · exact h.orderly.regular pr hmem
    · rwa [List.mem_singleton.mp hmem]
  · intro i j pr pr' hne hi hj
    have hold : ∀ (k : Nat) (other : Process), (sys.procs ++ [child])[k]? = some other →
        k < sys.procs.length → other.PipeFree := by
      intro k other hother hlt
      rw [List.getElem?_append_left hlt] at hother
      exact hfree other (List.mem_of_getElem? hother)
    have hi' := (List.getElem?_eq_some_iff.mp hi).1
    have hj' := (List.getElem?_eq_some_iff.mp hj).1
    rw [List.length_append, List.length_singleton] at hi' hj'
    by_cases hlt : i < sys.procs.length
    · exact .inl (hold i pr hi hlt)
    · exact .inr (hold j pr' hj (by omega))

/-- A process without code is replaced by another one. -/
theorem Balanced.setStopped {total : Multiset ExecCall} {history : List SysEvent} {sys : System}
    (h : Balanced total history sys) {i : Nat} {pr pr' : Process} (hpr : sys.procs[i]? = some pr)
    (hold : ∀ code, pr.status ≠ .running code) (hnew : ∀ code, pr'.status ≠ .running code) :
    Balanced total history (sys.setProc i pr') := by
  have hcalls : ∀ {other : Process}, (∀ code, other.status ≠ .running code) →
      other.calls sys.nextPipe = [] := by
    intro other hother
    unfold Process.calls
    split
    next code hcode => exact absurd hcode (hother code)
    next => rfl
  have hsum := System.calls_setProc hpr pr'
  rw [hcalls hold, hcalls hnew, Multiset.coe_nil, add_zero, add_zero] at hsum
  refine ⟨by rw [hsum, h.balance], ?_⟩
  exact h.orderly.setProc hpr (fun code hcode => absurd hcode (hnew code))
    fun _ code hcode => absurd hcode (hnew code)

/-- The calls of the lines that were read have been made or are still to come, and the
pipes are numbered in the order of the lines. -/
structure Served {Dir File : Type*} (input : Text) (fds : FdTable)
    (history : List (SessionEvent Dir)) (s : Session Dir File) (done : List Text)
    (total : Multiset ExecCall) : Prop where
  reading : Reading input history s done
  inherits : s.fds = fds
  tended : Tended s.main s.procs
  balanced : Balanced total (callsMade history) s.sys
  numbered : ∃ calls, SessionCalls fds.get 0 (commandLines done) calls
    (s.sys.nextPipe + s.sys.pipes) ∧ total.map ExecCall.view = calls

section Served

variable {Dir File : Type*} {input : Text} {fds : FdTable} {history : List (SessionEvent Dir)}
  {s : Session Dir File} {done : List Text} {total : Multiset ExecCall}
  (h : Served input fds history s done total)
include h

theorem Served.fork (hstd : StdOpen fds) {line : CString} (p : Nat × Nat) (dir : Nat → Dir)
    (hmain : s.main = .fork line) {t : Session Dir File} (ht : t =
      { s.withProcs (s.procs ++ [⟨none, .running (childCode line), p, s.fds⟩]) with
        main := .wait, dir := dir }) : ∃ done' total', Served input fds history t done' total' := by
  obtain ⟨hreading, rfl, htended, hbalanced, calls, hcalls, htotal⟩ := h
  obtain ⟨hreading', hlines⟩ := hreading.fork (t := t) hmain (by rw [ht]) (by rw [ht]; rfl)
  subst ht
  have hwait : s.main ≠ .wait := by simp [hmain]
  have hfree := htended.pipeFree hwait
  have hpipes : s.sys.pipes = 0 := System.pipes_eq_zero hfree
  have hline := childCode_calls line hstd p s.sys.nextPipe
  rw [hpipes, Nat.add_zero] at hcalls
  refine ⟨_, _, hreading', rfl, htended.forkMain hwait rfl,
    hbalanced.addProc hfree (Process.runs_of_running rfl (childCode_regular line)), ?_⟩
  refine ⟨calls ++ ((childCode line).calls p s.fds s.sys.nextPipe).map ExecCall.view, ?_, ?_⟩
  · rw [hlines]
    have hsum := @System.pipes_addProc s.sys ⟨none, .running (childCode line), p, s.fds⟩
    rw [hpipes, Nat.zero_add] at hsum
    exact hsum ▸ hcalls.snoc hline
  · rw [Multiset.map_add, htotal, ← Multiset.coe_add]
    rfl

/-- Nothing is read, and no calls are added. -/
theorem Served.goOn {t : Session Dir File} {events : List (SessionEvent Dir)}
    (ht : t.main = s.main ∨ s.main = .wait ∧ t.main = .getcmd) (hinput : t.input = s.input)
    (hread : piecesRead events = []) (hfds : t.fds = s.fds) (htended : Tended t.main t.procs)
    (hbalanced : Balanced total (callsMade history ++ callsMade events) t.sys)
    (hpipes : t.sys.nextPipe + t.sys.pipes = s.sys.nextPipe + s.sys.pipes) :
    Served input fds (history ++ events) t done total where
  reading := h.reading.goOn ht hinput hread
  inherits := hfds.trans h.inherits
  tended := htended
  balanced := by rwa [callsMade_append]
  numbered := hpipes ▸ h.numbered

variable [DecidableEq File] {naming : Naming Dir File}

theorem Served.step (hstd : StdOpen fds) {t : Session Dir File} {action : SessionAction File}
    {events : List (SessionEvent Dir)} (hok : s.callsSucceed (.session action))
    (hstep : s.Step naming action t events) :
    ∃ done' total', Served input fds (history ++ events) t done' total' := by
  have hbalanced : Balanced total (callsMade history ++ []) s.sys := by
    rw [List.append_nil]
    exact h.balanced
  cases hstep with
  | getcmd main rest cwd hmain hread =>
      obtain ⟨done', hreading, hlines⟩ := h.reading.getcmd cwd hmain hread
      refine ⟨done', total, hreading, h.inherits, h.tended.goOn (by simp [hmain]), ?_,
        hlines ▸ h.numbered⟩
      rw [callsMade_append, callsMade_reads]
      exact hbalanced
  | fork line p dir hmain =>
      rw [List.append_nil]
      exact h.fork hstd p dir hmain rfl
  | forkFails line p hmain => cases hok
  | reap child ch hmain hch hparent hstatus =>
      have hsum := System.pipes_setProc hch { ch with status := .reaped }
      simp only [Process.pipes, hstatus, add_zero] at hsum
      refine ⟨done, total, h.goOn (.inr ⟨hmain, rfl⟩) rfl rfl rfl
        (h.tended.reap hch hparent hstatus) ?_ (congrArg (s.sys.nextPipe + ·) hsum)⟩
      exact hbalanced.setStopped hch (by simp [hstatus]) (by simp)
  | waitFails hmain hreaped =>
      exact ⟨done, total, h.goOn (.inr ⟨hmain, rfl⟩) rfl rfl rfl
        ⟨h.tended.children, h.tended.alone, fun _ => hreaped⟩ hbalanced rfl⟩
  | process action sys made dir hadmits hsys =>
      have hregular := h.balanced.orderly.regular
      refine ⟨done, total, h.goOn (.inl rfl) rfl (piecesRead_process _ _) rfl
        (h.tended.process hregular hsys) ?_ (System.pipes_step hregular hok hsys)⟩
      rw [callsMade_process]
      exact h.balanced.step hok hsys
  | change files => exact ⟨done, total, h.goOn (.inl rfl) rfl rfl rfl h.tended hbalanced rfl⟩

theorem Served.sharedStep (hstd : StdOpen fds) {t : Session Dir File}
    {action : SharedAction File} {events : List (SessionEvent Dir)} (hok : s.callsSucceed action)
    (hstep : s.sharedStep naming action = some (t, events)) :
    ∃ done' total', Served input fds (history ++ events) t done' total' := by
  cases Session.sharedStep_inversion hstep with
  | session hstep => exact h.step hstd hok hstep
  | stdin rest =>
      refine ⟨done, total, h.reading.stdin rest, h.inherits, h.tended, ?_, h.numbered⟩
      rw [callsMade_append]
      exact (List.append_nil (callsMade history)).symm ▸ h.balanced

end Served

section Sessions

variable {Dir File : Type*} [DecidableEq File] {naming : Naming Dir File}

omit [DecidableEq File] in
theorem Served.start {input : Text} (hnul : (0 : UInt8) ∉ input) (fds : FdTable) (cwd : Dir)
    (files : File → Entry) (umask : Nat) :
    Served input fds [] (Session.start input fds cwd files umask) [] 0 where
  reading := .start hnul fds cwd files umask
  inherits := rfl
  tended := ⟨by simp [Session.start, Session.procs], by simp [Session.start, Session.procs],
    by simp [Session.start, Session.procs]⟩
  balanced := ⟨rfl, by simp [Session.start], by simp [Session.start]⟩
  numbered := ⟨[], .nil 0, rfl⟩

theorem served_of_reach {input : CString} {fds : FdTable} (hstd : StdOpen fds) {cwd : Dir}
    {files : File → Entry} {umask : Nat} {history : List (SessionEvent Dir)}
    {s : Session Dir File}
    (h : Reach (Session.sharedStep naming) Session.callsSucceed
      (Session.start input.1 fds cwd files umask) history s) :
    ∃ done total, Served input.1 fds history s done total := by
  induction h with
  | start => exact ⟨[], 0, .start input.2 fds cwd files umask⟩
  | step _ hok hstep ih =>
      obtain ⟨done, total, hserved⟩ := ih
      exact hserved.sharedStep hstd hok hstep

/-- When `main` has come to the end of its input and no process has calls of the shell
left, the calls of `execvp` are those of the lines that `main` has read: each stage with
words once, with the pipes and files of its place, whatever the order of the steps. These
lines are the input's, if no other process has moved the offset. -/
theorem session_executes_input (naming : Naming Dir File) (input : CString) {fds : FdTable}
    (hstd : StdOpen fds) {cwd : Dir} {files : File → Entry} {umask : Nat}
    {history : List (SessionEvent Dir)} {s : Session Dir File}
    (hreach : Reach (Session.sharedStep naming) Session.callsSucceed
      (Session.start input.1 fds cwd files umask) history s)
    (hmain : s.main = .exited) (hfinished : s.sys.Finished) :
    (∃ calls m, SessionCalls fds.get 0 (commandLines (piecesRead history)) calls m ∧
      ((executed history).map ExecCall.view).Perm calls) ∧
    (.moved ∉ history → piecesRead history = pieces input.1) := by
  obtain ⟨done, total, hserved⟩ := served_of_reach hstd hreach
  have hread := hserved.reading.read
  rw [hmain, MainPhase.pending_exited, List.append_nil] at hread
  obtain ⟨calls, hcalls, htotal⟩ := hserved.numbered
  constructor
  · refine ⟨calls, _, hread ▸ hcalls, ?_⟩
    rw [← hserved.balanced.finished hfinished, Multiset.map_coe] at htotal
    exact Multiset.coe_eq_coe.mp htotal
  · intro hunmoved
    have hsplit := hserved.reading.unmoved hunmoved
    rwa [hserved.reading.exited hunmoved hmain, pieces_nil, List.append_nil] at hsplit

end Sessions

/-- The program of the left side is still running when the second line is read. -/
def twoLinesRun : List (SharedAction Text) :=
  List.map .session <| [.getcmd, .fork true (0, 0)] ++
    List.replicate 2 (.process (.call 0 true)) ++ List.replicate 5 (.process (.call 1 true)) ++
    List.replicate 5 (.process (.call 0 true)) ++ [.process (.terminate 0), .reap 0, .getcmd,
      .fork true (0, 0), .process (.call 2 true), .process (.terminate 2), .reap 2,
      .getcmd]

theorem twoLinesRun_isSome :
    (run (Session.sharedStep plainNames) (Session.start twoLines.1 terminalFds [] noFiles 18)
      twoLinesRun).isSome := by
  decide +kernel

theorem twoLinesRun_admitted : Admitted (Session.sharedStep plainNames) Session.callsSucceed
    (Session.start twoLines.1 terminalFds [] noFiles 18) twoLinesRun := by
  refine admitted_of_forall (fun s => ?_) _
  simp [twoLinesRun, Session.callsSucceed, callsSucceed]

theorem session_executes_input_twoLines : ∃ history s calls m,
    Reach (Session.sharedStep plainNames) Session.callsSucceed
        (Session.start twoLines.1 terminalFds [] noFiles 18) history s ∧
      SessionCalls terminalFds.get 0 (commandLines (pieces twoLines.1)) calls m ∧
      ((executed history).map ExecCall.view).Perm calls := by
  have hreach := Reach.of_isSome twoLinesRun twoLinesRun_admitted twoLinesRun_isSome
  obtain ⟨⟨calls, m, hcalls, hperm⟩, hunmoved⟩ := session_executes_input plainNames twoLines
    (by simp [StdOpen, terminalFds, SlotTable.get]) hreach (by decide +kernel) (by
      intro pr hpr code hcode
      have hstatuses : ((run (Session.sharedStep plainNames)
          (Session.start twoLines.1 terminalFds [] noFiles 18)
          twoLinesRun).get twoLinesRun_isSome).1.procs.map Process.status =
            [.reaped, .execed (argvOf [[97]]), .reaped] := by decide +kernel
      have hmem := List.mem_map_of_mem (f := Process.status) hpr
      rw [Session.procs] at hstatuses
      rw [hstatuses, hcode] at hmem
      simp at hmem)
  rw [hunmoved (by decide +kernel)] at hcalls
  exact ⟨_, _, calls, m, hreach, hcalls, hperm⟩

end OsCourse.Shell
