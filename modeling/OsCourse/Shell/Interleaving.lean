import Mathlib.Algebra.BigOperators.Group.Multiset.Basic
import Mathlib.Algebra.GroupWithZero.Nat
import Mathlib.Algebra.Order.BigOperators.Group.List
import OsCourse.Shell.Process

/-! # The calls of a run do not depend on its schedule

A process that runs alone makes a determined list of `execvp` calls. When at
most one process ever creates pipes, the calls of a whole system are the union
of these lists: every step of every schedule moves calls from what is still to
be made to the history, and neither adds nor loses one.
-/

namespace OsCourse.Shell

open Transition

/-- One `execvp` call: its arguments and the descriptors it passes on. -/
abbrev ExecCall := Argv × FdTable

/-- The `execvp` calls of a history, in order. -/
def execCalls (history : List SysEvent) : List ExecCall :=
  history.filterMap fun
    | .execvp _ argv fds => some (argv, fds)
    | .opened .. => none

@[simp] theorem execCalls_nil : execCalls [] = [] := rfl

@[simp] theorem execCalls_append (first second : List SysEvent) :
    execCalls (first ++ second) = execCalls first ++ execCalls second :=
  List.filterMap_append

namespace Prog

/-- The `execvp` calls made by running the code and its children one after the
other, when every call succeeds and pipes are numbered from `n`. -/
def calls : Prog → Nat × Nat → FdTable → Nat → List ExecCall
  | .close fd next, p, fds, n => next.calls p (fds.clear (fd.eval p)) n
  | .dup fd next, p, fds, n => next.calls p (Process.dup fds (fd.eval p)) n
  | .openFile file flags _ next, p, fds, n => next.calls p (fds.fill (.file file flags)) n
  | .pipe next, _, fds, n =>
      let fds' := fds.fill (.pipeRead n)
      next.calls (fds.lowest, fds'.lowest) (fds'.fill (.pipeWrite n)) (n + 1)
  | .fork child parent, p, fds, n => child.calls p fds n ++ parent.calls p fds n
  | .execvp argv _, _, fds, _ => [(argv, fds)]
  | .wait next, p, fds, n => next.calls p fds n
  | .exit, _, _, _ => []

/-- The code creates no pipe. -/
def PipeFree : Prog → Prop
  | .close _ next | .dup _ next | .openFile _ _ _ next | .wait next | .execvp _ next =>
      next.PipeFree
  | .pipe _ => False
  | .fork child parent => child.PipeFree ∧ parent.PipeFree
  | .exit => True

/-- The code forks only children that create no pipe, exits after a failed
`execvp` and does not wait. -/
def Regular : Prog → Prop
  | .close _ next | .dup _ next | .openFile _ _ _ next | .pipe next => next.Regular
  | .fork child parent => child.PipeFree ∧ child.Regular ∧ parent.Regular
  | .execvp _ next => next = .exit
  | .wait _ => False
  | .exit => True

/-- The number of calls left, children included. -/
def size : Prog → Nat
  | .close _ next | .dup _ next | .openFile _ _ _ next | .pipe next | .wait next
  | .execvp _ next => next.size + 1
  | .fork child parent => child.size + parent.size + 1
  | .exit => 1

theorem PipeFree.calls_eq {code : Prog} (h : code.PipeFree) (p : Nat × Nat) (fds : FdTable)
    (n m : Nat) : code.calls p fds n = code.calls p fds m := by
  induction code generalizing p fds with
  | close fd next ih => exact ih h p _
  | dup fd next ih => exact ih h p _
  | openFile file flags perm next ih => exact ih h p _
  | pipe next ih => exact h.elim
  | fork child parent ihc ihp => simp only [calls, ihc h.1 p fds, ihp h.2 p fds]
  | execvp argv next ih => rfl
  | wait next ih => exact ih h p fds
  | exit => rfl

end Prog

namespace Process

/-- The calls a process makes when it runs alone. -/
def calls (pr : Process) (n : Nat) : List ExecCall :=
  match pr.status with
  | .running code => code.calls pr.p pr.fds n
  | _ => []

def PipeFree (pr : Process) : Prop := ∀ code, pr.status = .running code → code.PipeFree

def Regular (pr : Process) : Prop := ∀ code, pr.status = .running code → code.Regular

def size (pr : Process) : Nat :=
  match pr.status with
  | .running code => code.size
  | _ => 0

theorem PipeFree.calls_eq {pr : Process} (h : pr.PipeFree) (n m : Nat) :
    pr.calls n = pr.calls m := by
  unfold calls
  cases hstatus : pr.status with
  | running code => exact (h code hstatus).calls_eq _ _ _ _
  | _ => rfl

end Process

theorem sum_map_set {α M : Type*} [AddCommMonoid M] (f : α → M) {l : List α} {i : Nat}
    {old : α} (hold : l[i]? = some old) (new : α) :
    ((l.set i new).map f).sum + f old = (l.map f).sum + f new := by
  induction l generalizing i with
  | nil => simp at hold
  | cons head tail ih =>
      cases i with
      | zero =>
          simp only [List.getElem?_cons_zero, Option.some.injEq] at hold
          subst hold
          simp only [List.set_cons_zero, List.map_cons, List.sum_cons]
          rw [add_right_comm, add_comm (f new) (f head), add_right_comm]
      | succ i =>
          rw [List.getElem?_cons_succ] at hold
          simp only [List.set_cons_succ, List.map_cons, List.sum_cons, add_assoc, ih hold]

namespace System

/-- All calls the processes of a system still have to make. -/
def calls (sys : System) : Multiset ExecCall :=
  (sys.procs.map fun pr => (pr.calls sys.nextPipe : Multiset ExecCall)).sum

/-- The number of calls of any kind the system still has to make. -/
def size (sys : System) : Nat := (sys.procs.map Process.size).sum

end System

namespace System

variable {sys : System} {i : Nat} {pr : Process}

theorem calls_setProc (hpr : sys.procs[i]? = some pr) (pr' : Process) :
    (sys.setProc i pr').calls + (pr.calls sys.nextPipe : Multiset ExecCall) =
      sys.calls + (pr'.calls sys.nextPipe : Multiset ExecCall) :=
  sum_map_set (fun pr => (pr.calls sys.nextPipe : Multiset ExecCall)) hpr pr'

theorem calls_addProc (child : Process) :
    ({ sys with procs := sys.procs ++ [child] } : System).calls =
      sys.calls + (child.calls sys.nextPipe : Multiset ExecCall) := by
  simp [calls]

theorem size_setProc (hpr : sys.procs[i]? = some pr) (pr' : Process) :
    (sys.setProc i pr').size + pr.size = sys.size + pr'.size :=
  sum_map_set Process.size hpr pr'

/-- Every process runs regular code, and of any two processes at most one can
create pipes. -/
structure Orderly (sys : System) : Prop where
  regular : ∀ pr ∈ sys.procs, pr.Regular
  onePipe : ∀ (i j : Nat) (pr pr' : Process), i ≠ j → sys.procs[i]? = some pr →
    sys.procs[j]? = some pr' → pr.PipeFree ∨ pr'.PipeFree

theorem Orderly.setProc (h : sys.Orderly) (hpr : sys.procs[i]? = some pr) {pr' : Process}
    (hregular : pr'.Regular) (hfree : pr.PipeFree → pr'.PipeFree) :
    (sys.setProc i pr').Orderly := by
  refine ⟨?_, ?_⟩
  · intro other hother
    rcases List.mem_or_eq_of_mem_set hother with hmem | rfl
    · exact h.regular other hmem
    · exact hregular
  · intro j k a b hne ha hb
    have hlt := (List.getElem?_eq_some_iff.mp hpr).1
    simp only [System.setProc, List.getElem?_set, hlt, ↓reduceIte] at ha hb
    by_cases hij : i = j
    · subst hij
      rw [if_pos rfl] at ha
      rw [if_neg hne] at hb
      cases ha
      exact (h.onePipe i k pr b hne hpr hb).imp_left hfree
    · rw [if_neg hij] at ha
      by_cases hik : i = k
      · subst hik
        rw [if_pos rfl] at hb
        cases hb
        exact (h.onePipe j i a pr hne ha hpr).imp_right hfree
      · rw [if_neg hik] at hb
        exact h.onePipe j k a b hne ha hb

theorem Orderly.addProc (h : sys.Orderly) {child : Process} (hregular : child.Regular)
    (hfree : child.PipeFree) : ({ sys with procs := sys.procs ++ [child] } : System).Orderly := by
  have hnew : ∀ (j : Nat) (a : Process), ¬ j < sys.procs.length →
      (sys.procs ++ [child])[j]? = some a → a = child := by
    intro j a hj ha
    rw [List.getElem?_append_right (by omega)] at ha
    exact List.mem_singleton.mp (List.mem_of_getElem? ha)
  refine ⟨?_, ?_⟩
  · intro other hother
    rcases List.mem_append.mp hother with hmem | hmem
    · exact h.regular other hmem
    · rw [List.mem_singleton.mp hmem]
      exact hregular
  · intro j k a b hne ha hb
    by_cases hj : j < sys.procs.length
    · by_cases hk : k < sys.procs.length
      · rw [List.getElem?_append_left hj] at ha
        rw [List.getElem?_append_left hk] at hb
        exact h.onePipe j k a b hne ha hb
      · exact Or.inr (hnew k b hk hb ▸ hfree)
    · exact Or.inl (hnew j a hj ha ▸ hfree)

/-- The others create no pipe while one process is about to. -/
theorem Orderly.pipeFree_of_ne (h : sys.Orderly) (hpr : sys.procs[i]? = some pr) {next : Prog}
    (hstatus : pr.status = .running (.pipe next)) {j : Nat} {other : Process} (hne : j ≠ i)
    (hother : sys.procs[j]? = some other) : other.PipeFree := by
  rcases h.onePipe j i other pr hne hother hpr with hfree | hfree
  · exact hfree
  · exact (hfree _ hstatus).elim

/-- A successful `pipe` renumbers no other process's calls. -/
theorem Orderly.calls_makePipe (h : sys.Orderly) (hpr : sys.procs[i]? = some pr) {next : Prog}
    (hstatus : pr.status = .running (.pipe next)) :
    ({ sys.setProc i (pr.makePipe sys.nextPipe next) with
      nextPipe := sys.nextPipe + 1 } : System).calls = sys.calls := by
  have hcalls : (pr.makePipe sys.nextPipe next).calls (sys.nextPipe + 1) =
      pr.calls sys.nextPipe := by
    simp only [Process.calls, hstatus, Process.makePipe, Prog.calls]
  have hlt := (List.getElem?_eq_some_iff.mp hpr).1
  simp only [calls, System.setProc]
  congr 1
  apply List.ext_getElem?
  intro j
  simp only [List.getElem?_map, List.getElem?_set]
  by_cases hij : i = j
  · subst hij
    simp only [↓reduceIte, hlt, Option.map_some, hcalls, hpr]
  · simp only [hij, ↓reduceIte]
    cases hother : sys.procs[j]? with
    | none => rfl
    | some other =>
        simp only [Option.map_some, (h.pipeFree_of_ne hpr hstatus (Ne.symm hij) hother).calls_eq
          (sys.nextPipe + 1) sys.nextPipe]

theorem Orderly.makePipe (h : sys.Orderly) (hpr : sys.procs[i]? = some pr) {next : Prog}
    (hstatus : pr.status = .running (.pipe next)) :
    ({ sys.setProc i (pr.makePipe sys.nextPipe next) with
      nextPipe := sys.nextPipe + 1 } : System).Orderly := by
  have hregular : (pr.makePipe sys.nextPipe next).Regular := by
    rintro code heq
    cases heq
    exact (h.regular pr (List.mem_of_getElem? hpr) _ hstatus : (Prog.pipe next).Regular)
  have hset := h.setProc hpr hregular (fun hfree => (hfree _ hstatus).elim)
  exact ⟨hset.regular, hset.onePipe⟩

end System

/-- What one call does in an orderly system: the `execvp` calls it makes leave
the remaining ones, and the work gets less. -/
structure CallSpec (sys sys' : System) (events : List SysEvent) : Prop where
  balance : (execCalls events : Multiset ExecCall) + sys'.calls = sys.calls
  orderly : sys'.Orderly
  size_lt : sys'.size < sys.size

/-- A call that changes only the calling process. -/
theorem CallSpec.setProc {sys : System} {i : Nat} {pr pr' : Process} {events : List SysEvent}
    (h : sys.Orderly) (hpr : sys.procs[i]? = some pr)
    (hcalls : execCalls events ++ pr'.calls sys.nextPipe = pr.calls sys.nextPipe)
    (hregular : pr'.Regular) (hfree : pr.PipeFree → pr'.PipeFree) (hsize : pr'.size < pr.size) :
    CallSpec sys (sys.setProc i pr') events := by
  refine ⟨?_, h.setProc hpr hregular hfree, ?_⟩
  · have hsum := System.calls_setProc hpr pr'
    rw [← hcalls, ← Multiset.coe_add, ← add_assoc] at hsum
    have hcancel := add_right_cancel hsum
    rwa [add_comm] at hcancel
  · have hsum := System.size_setProc hpr pr'
    omega

/-- Going on with the rest of the code on a changed descriptor table. -/
theorem CallSpec.goOn {sys : System} {i : Nat} {pr : Process} {code next : Prog} {fds : FdTable}
    {events : List SysEvent} (h : sys.Orderly) (hpr : sys.procs[i]? = some pr)
    (hstatus : pr.status = .running code) (hevents : execCalls events = [])
    (hcalls : next.calls pr.p fds sys.nextPipe = code.calls pr.p pr.fds sys.nextPipe)
    (hregular : code.Regular → next.Regular) (hfree : code.PipeFree → next.PipeFree)
    (hsize : next.size < code.size) :
    CallSpec sys (sys.setProc i (pr.goOn next fds)) events := by
  apply CallSpec.setProc h hpr
  · simp only [hevents, List.nil_append, Process.calls, Process.goOn, hstatus, hcalls]
  · rintro _ heq
    cases heq
    exact hregular (h.regular pr (List.mem_of_getElem? hpr) code hstatus)
  · rintro hpr' _ heq
    cases heq
    exact hfree (hpr' code hstatus)
  · simpa only [Process.size, Process.goOn, hstatus] using hsize

theorem CallSpec.fork {sys : System} {i : Nat} {pr : Process} {child parent : Prog}
    (h : sys.Orderly) (hpr : sys.procs[i]? = some pr)
    (hstatus : pr.status = .running (.fork child parent)) :
    CallSpec sys
      { sys.setProc i (pr.goOn parent pr.fds) with
        procs := (sys.setProc i (pr.goOn parent pr.fds)).procs ++
          [{ pr with parent := some i, status := .running child }] } [] := by
  obtain ⟨hchildFree, hchild, hparent⟩ :=
    h.regular pr (List.mem_of_getElem? hpr) _ hstatus
  have hset : (sys.setProc i (pr.goOn parent pr.fds)).Orderly := by
    apply h.setProc hpr
    · rintro _ heq
      cases heq
      exact hparent
    · rintro hfree _ heq
      cases heq
      exact (hfree _ hstatus).2
  refine ⟨?_, hset.addProc ?_ ?_, ?_⟩
  · have hsum := System.calls_setProc hpr (pr.goOn parent pr.fds)
    have hold : (pr.calls sys.nextPipe : Multiset ExecCall) =
        child.calls pr.p pr.fds sys.nextPipe + parent.calls pr.p pr.fds sys.nextPipe := by
      simp only [Process.calls, hstatus, Prog.calls, Multiset.coe_add]
    rw [hold, ← add_assoc] at hsum
    have hcancel := add_right_cancel hsum
    rw [System.calls_addProc]
    simpa [System.setProc, Process.calls] using hcancel
  · rintro _ heq
    cases heq
    exact hchild
  · rintro _ heq
    cases heq
    exact hchildFree
  · have hsum := System.size_setProc hpr (pr.goOn parent pr.fds)
    have hold : pr.size = child.size + parent.size + 1 := by
      simp only [Process.size, hstatus, Prog.size]
    have hnew : (pr.goOn parent pr.fds).size = parent.size := rfl
    simp only [System.size, List.map_append, List.map_cons, List.map_nil, List.sum_append,
      List.sum_singleton]
    simp only [System.size] at hsum
    simp only [Process.size] at hold hnew hsum ⊢
    omega

/-- Every call of an orderly system goes through and does what `CallSpec` says,
whatever the outcome of `execvp`. -/
theorem System.call_spec {sys : System} {i : Nat} {pr : Process} {code : Prog}
    (h : sys.Orderly) (hpr : sys.procs[i]? = some pr) (hstatus : pr.status = .running code)
    (ok : Bool) (hok : ok = true ∨ ∃ argv next, code = .execvp argv next) :
    ∃ sys' events, sys.call i pr ok code = some (sys', events) ∧ CallSpec sys sys' events := by
  have hregular := h.regular pr (List.mem_of_getElem? hpr) code hstatus
  cases code with
  | close fd next =>
      exact ⟨_, _, rfl, .goOn h hpr hstatus rfl rfl id id (Nat.lt_succ_self _)⟩
  | dup fd next =>
      exact ⟨_, _, rfl, .goOn h hpr hstatus rfl rfl id id (Nat.lt_succ_self _)⟩
  | openFile file flags perm next =>
      obtain rfl : ok = true := by simpa using hok
      exact ⟨_, _, rfl, .goOn h hpr hstatus rfl rfl id id (Nat.lt_succ_self _)⟩
  | pipe next =>
      obtain rfl : ok = true := by simpa using hok
      refine ⟨_, _, rfl, ?_, h.makePipe hpr hstatus, ?_⟩
      · rw [h.calls_makePipe hpr hstatus]
        simp
      · have hsum := System.size_setProc hpr (pr.makePipe sys.nextPipe next)
        have hold : pr.size = next.size + 1 := by simp only [Process.size, hstatus, Prog.size]
        have hnew : (pr.makePipe sys.nextPipe next).size = next.size := rfl
        simp only [System.size] at hsum ⊢
        omega
  | fork child parent =>
      obtain rfl : ok = true := by simpa using hok
      exact ⟨_, _, rfl, .fork h hpr hstatus⟩
  | execvp argv next =>
      obtain rfl : next = .exit := hregular
      refine ⟨_, _, rfl, .setProc h hpr ?_ ?_ ?_ ?_⟩
      · cases ok <;> simp [Process.calls, hstatus, Prog.calls, execCalls]
      · cases ok <;> rintro _ heq <;> cases heq
        trivial
      · cases ok <;> rintro _ _ heq <;> cases heq
        trivial
      · cases ok <;> simp [Process.size, hstatus, Prog.size]
  | wait next => exact hregular.elim
  | exit =>
      refine ⟨_, _, rfl, .setProc h hpr ?_ ?_ ?_ ?_⟩
      · simp [Process.calls, hstatus, Prog.calls, execCalls]
      · rintro _ heq
        cases heq
      · rintro _ _ heq
        cases heq
      · simp [Process.size, hstatus, Prog.size]

/-- The calls made so far and those still to be made add up to `total`. -/
structure Balanced (total : Multiset ExecCall) (history : List SysEvent) (sys : System) :
    Prop where
  balance : (execCalls history : Multiset ExecCall) + sys.calls = total
  orderly : sys.Orderly

theorem Balanced.call {total : Multiset ExecCall} {history : List SysEvent} {sys sys' : System}
    {events : List SysEvent} (h : Balanced total history sys) (hcall : CallSpec sys sys' events) :
    Balanced total (history ++ events) sys' := by
  refine ⟨?_, hcall.orderly⟩
  rw [execCalls_append, ← Multiset.coe_add, add_assoc, hcall.balance, h.balance]

theorem Balanced.step {total : Multiset ExecCall} {history : List SysEvent} {sys sys' : System}
    {events : List SysEvent} {action : SysAction} (h : Balanced total history sys)
    (hok : callsSucceed sys action) (hstep : sys.step action = some (sys', events)) :
    Balanced total (history ++ events) sys' := by
  cases action with
  | call i ok =>
      simp only [System.step] at hstep
      split at hstep
      next pr hpr =>
        split at hstep
        next code hstatus =>
          have hok' : ok = true ∨ ∃ argv next, code = .execvp argv next := by
            refine hok.imp_right ?_
            rintro ⟨other, hother, argv, next, hexec⟩
            rw [hpr] at hother
            cases hother
            rw [hstatus] at hexec
            cases hexec
            exact ⟨argv, next, rfl⟩
          obtain ⟨sys'', events', hcall, hspec⟩ := System.call_spec h.orderly hpr hstatus ok hok'
          rw [hcall] at hstep
          cases hstep
          exact h.call hspec
        next => cases hstep
      next => cases hstep
  | reap i child =>
      -- regular code never waits
      simp only [System.step] at hstep
      split at hstep
      next pr ch hpr hch =>
        split at hstep
        next next hstatus _ =>
          exact (h.orderly.regular pr (List.mem_of_getElem? hpr) _ hstatus).elim
        next => cases hstep
      next => cases hstep
  | terminate i =>
      simp only [System.step] at hstep
      split at hstep
      next pr hpr =>
        split at hstep
        next argv hstatus =>
          cases hstep
          have hcalls := System.calls_setProc hpr { pr with status := .terminated }
          simp only [Process.calls, hstatus] at hcalls
          refine ⟨?_, h.orderly.setProc hpr ?_ ?_⟩
          · rw [← h.balance]
            simpa using hcalls
          · rintro _ heq
            cases heq
          · rintro _ _ heq
            cases heq
        next => cases hstep
      next => cases hstep

/-- A single process running regular code. -/
theorem Balanced.start (parent : Option Nat) (code : Prog) (p : Nat × Nat) (fds : FdTable)
    (n : Nat) (hregular : code.Regular) :
    Balanced (code.calls p fds n) [] ⟨[⟨parent, .running code, p, fds⟩], n⟩ := by
  refine ⟨by simp [System.calls, Process.calls], ?_, ?_⟩
  · intro pr hpr
    rw [List.mem_singleton.mp hpr]
    rintro _ heq
    cases heq
    exact hregular
  · intro i j pr pr' hne hi hj
    have hi' := (List.getElem?_eq_some_iff.mp hi).1
    have hj' := (List.getElem?_eq_some_iff.mp hj).1
    simp only [List.length_singleton] at hi' hj'
    omega

/-- Once no process has calls left, the calls made are those of the processes
running alone. -/
theorem Balanced.finished {total : Multiset ExecCall} {history : List SysEvent} {sys : System}
    (h : Balanced total history sys) (hfinished : sys.Finished) :
    (execCalls history : Multiset ExecCall) = total := by
  have hzero : sys.calls = 0 := by
    apply List.sum_eq_zero
    intro calls hcalls
    obtain ⟨pr, hpr, rfl⟩ := List.mem_map.mp hcalls
    cases hstatus : pr.status with
    | running code => exact absurd hstatus (hfinished pr hpr code)
    | _ => simp [Process.calls, hstatus]
  rw [← h.balance, hzero, add_zero]

/-- Every run of an orderly system can be completed. -/
theorem Balanced.exists_finished {total : Multiset ExecCall} {init sys : System}
    {history : List SysEvent} (h : Balanced total history sys)
    (hreach : Reach System.step callsSucceed init history sys) :
    ∃ more last, Reach System.step callsSucceed init (history ++ more) last ∧
      last.Finished := by
  induction hsize : sys.size using Nat.strong_induction_on generalizing history sys with
  | _ size ih =>
      by_cases hfinished : sys.Finished
      · exact ⟨[], sys, by simpa using hreach, hfinished⟩
      · obtain ⟨pr, hpr, code, hstatus⟩ : ∃ pr ∈ sys.procs, ∃ code, pr.status = .running code := by
          simpa [System.Finished] using hfinished
        obtain ⟨i, hi⟩ := List.mem_iff_getElem?.mp hpr
        obtain ⟨sys', events, hcall, hspec⟩ :=
          System.call_spec h.orderly hi hstatus true (Or.inl rfl)
        have hstep : sys.step (.call i true) = some (sys', events) := by
          simp only [System.step, hi, hstatus, hcall]
        have hok : callsSucceed sys (.call i true) := Or.inl rfl
        obtain ⟨more, last, hlast, hdone⟩ := ih sys'.size (hsize ▸ hspec.size_lt)
          (h.call hspec) (hreach.step hok hstep) rfl
        exact ⟨events ++ more, last, by rwa [← List.append_assoc], hdone⟩

end OsCourse.Shell
