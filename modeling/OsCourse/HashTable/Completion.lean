import Mathlib.Algebra.Order.BigOperators.Group.Finset
import OsCourse.HashTable.Lossless

/-! # The process comes to its end

Every step lowers a measure of the work left, and before the end of `main` some
step can be taken, so every way to schedule the threads brings `main` to its
end. With the invariant this makes the program lossless.
-/

namespace OsCourse.HashTable

open LinkedList MachineInt Transition

variable {n : Nat} {Lock : Type*} [DecidableEq Lock] {lockOf : Bucket → Lock} {keys : List Nat}
  {p q : Program n Lock} {history events : List (Inserted (Fin n))}

/-! ## The work left -/

/-- The turns that a thread's loop over the keys has at most from `key` on. -/
def turnsLeft (keys : List Nat) (key : Int) : Nat := keys.length - key.toNat

/-- The most steps of one turn of `get_phase`. -/
def getTurn (keys : List Nat) : Nat := 2 * keys.length + 4

/-- The most steps of a `get_phase` thread. -/
def getAll (keys : List Nat) : Nat := keys.length * getTurn keys + 1

/-- The most steps a thread and its successor in the other phase have left. -/
def Worker.left (keys : List Nat) (s : State (Fin n) Lock) (i : Fin n) : Worker → Nat
  | .absent => 10 * keys.length + 1 + getAll keys
  | .put key => 10 * turnsLeft keys key + 1 + getAll keys
  | .inserting key =>
      10 * turnsLeft keys (key + 1) + 2 + (s.thread i).left + getAll keys
  | .putDone => getAll keys
  | .get key _ => turnsLeft keys key * getTurn keys + 1
  | .probe key _ b =>
      turnsLeft keys (key + 1) * getTurn keys + 1 +
        (2 * walk (nodeAt s.heap) (keys.length + 1) b + 1)
  | .follow key _ b =>
      turnsLeft keys (key + 1) * getTurn keys + 1 +
        2 * walk (nodeAt s.heap) (keys.length + 1) (some b)
  | .returned _ => 0

/-- The steps that `main` has left. -/
def Main.left (n : Nat) (m : Main) : Nat :=
  match m.loop with
  | .createPut => 3 * (n + 1) + (n - m.i) + 1
  | .joinPut => 2 * (n + 1) + (n - m.i) + 1
  | .createGet => (n + 1) + (n - m.i) + 1
  | .joinGet => (n - m.i) + 1
  | .done => 0

def Program.left (keys : List Nat) (p : Program n Lock) : Nat :=
  p.main.left n + ∑ i, (p.worker i).left keys p.memory i

theorem turnsLeft_next {key : Int} (hkey : 0 ≤ key) (hlt : key < keys.length) :
    turnsLeft keys key = turnsLeft keys (key + 1) + 1 := by
  unfold turnsLeft
  omega

/-- A turn of a loop skips `n` keys. -/
theorem turnsLeft_skip (keys : List Nat) {key : Int} (hn : 1 ≤ n) (hkey : 0 ≤ key) :
    turnsLeft keys (key + n) ≤ turnsLeft keys (key + 1) := by
  unfold turnsLeft
  omega

omit [DecidableEq Lock] in
theorem left_congr {s s' : State (Fin n) Lock} {i : Fin n} {w : Worker}
    (hthread : s'.thread i = s.thread i) (hheap : w.Getting → s'.heap = s.heap) :
    w.left keys s' i = w.left keys s i := by
  cases w with
  | inserting key => simp only [Worker.left, hthread]
  | probe key lost b => simp only [Worker.left, hheap trivial]
  | follow key lost b => simp only [Worker.left, hheap trivial]
  | _ => rfl

omit [DecidableEq Lock] in
/-- One thread has less left, the others and `main` no more. -/
theorem left_lt_of_worker {i : Fin n} (hmain : q.main.left n ≤ p.main.left n)
    (hlt : (q.worker i).left keys q.memory i < (p.worker i).left keys p.memory i)
    (hothers : ∀ j, j ≠ i → (q.worker j).left keys q.memory j ≤ (p.worker j).left keys p.memory j) :
    q.left keys < p.left keys := by
  unfold Program.left
  have hsum : ∑ j, (q.worker j).left keys q.memory j < ∑ j, (p.worker j).left keys p.memory j := by
    refine Finset.sum_lt_sum (fun j _ => ?_) ⟨i, Finset.mem_univ i, hlt⟩
    by_cases hji : j = i
    · exact hji ▸ hlt.le
    · exact hothers j hji
  omega

omit [DecidableEq Lock] in
/-- `main` has less left, and no thread more. -/
theorem left_lt_of_main (hmain : q.main.left n < p.main.left n)
    (hworkers : ∀ j, (q.worker j).left keys q.memory j ≤ (p.worker j).left keys p.memory j) :
    q.left keys < p.left keys := by
  unfold Program.left
  have hsum := Finset.sum_le_sum fun j (_ : j ∈ Finset.univ) => hworkers j
  omega

omit [DecidableEq Lock] in
theorem left_setWorker_lt {i : Fin n} {w w' : Worker} (hw : p.worker i = w)
    (hlt : w'.left keys p.memory i < w.left keys p.memory i) :
    (p.setWorker i w').left keys < p.left keys := by
  refine left_lt_of_worker (Nat.le_refl _) (i := i) ?_ fun j hji => ?_
  · simpa [Program.setWorker, hw] using hlt
  · simp [Program.setWorker, hji]

omit [DecidableEq Lock] in
/-- `main` creates a thread that has no more left than the one before it. -/
theorem left_create_lt {i : Fin n} {w w' : Worker} {m : Main} (hw : p.worker i = w)
    (hmain : m.left n < p.main.left n)
    (hle : w'.left keys p.memory i ≤ w.left keys p.memory i) :
    ((p.setWorker i w').setMain m).left keys < p.left keys := by
  refine left_lt_of_main hmain fun j => ?_
  by_cases hji : j = i
  · subst hji
    simpa [Program.setWorker, Program.setMain, hw] using hle
  · simp [Program.setWorker, Program.setMain, hji]

theorem turnsLeft_le (keys : List Nat) (key : Int) : turnsLeft keys key ≤ keys.length :=
  Nat.sub_le ..

theorem getTurn_mul_le (keys : List Nat) {a b : Nat} (h : a ≤ b) :
    a * getTurn keys ≤ b * getTurn keys :=
  Nat.mul_le_mul_right _ h

theorem walk_le_of_ahead {heap : Addr → Option BucketEntry} {k : Nat} {ptr : Option Addr}
    (h : Ahead keys heap k ptr) : walk (nodeAt heap) (keys.length + 1) ptr ≤ keys.length := by
  obtain ⟨cells, hlinked, hlength, -⟩ := h
  rw [hlinked.walk_eq (Nat.le_succ_of_le hlength)]
  exact hlength

theorem walk_of_ahead_next {heap : Addr → Option BucketEntry} {k : Nat} {b : Addr}
    {x : Nat × Int} {next : Option Addr} (hnode : nodeAt heap b = some (x, next))
    (h : Ahead keys heap k next) :
    walk (nodeAt heap) (keys.length + 1) (some b) =
      walk (nodeAt heap) (keys.length + 1) next + 1 := by
  obtain ⟨cells, hlinked, hlength, -⟩ := h
  rw [hlinked.walk_eq (Nat.le_succ_of_le hlength),
    (hlinked.push hnode).walk_eq (Nat.succ_le_succ hlength), List.length_cons]

theorem Turn.left_lt (h : Turn lockOf keys p q events) (hfit : ThreadsFit keys n)
    (hright : Right lockOf keys history p) : q.left keys < p.left keys := by
  cases h with
  | @createPut i hi hloop =>
      have habsent : p.worker i = .absent := by
        simpa [Main.Allows, hloop, hi] using hright.placed i
      apply left_create_lt habsent
      · simp only [Main.left, hloop]
        omega
      · have hturns := turnsLeft_le keys (wrap i)
        simp only [Worker.left]
        omega
  | @joinPut i hi hloop hw =>
      refine left_lt_of_main ?_ fun _ => Nat.le_refl _
      simp only [Program.setMain, Main.left, hloop]
      omega
  | @createGet i hi hloop =>
      have hdone : p.worker i = .putDone := by
        simpa [Main.Allows, hloop, hi] using hright.placed i
      apply left_create_lt hdone
      · simp only [Main.left, hloop]
        omega
      · exact Nat.succ_le_succ (getTurn_mul_le keys (turnsLeft_le keys (wrap i)))
  | @joinGet i lost hi hloop hw =>
      refine left_lt_of_main ?_ fun _ => Nat.le_refl _
      simp only [Program.setMain, Main.left, hloop]
      omega
  | mainEnd hi hq =>
      unfold Program.mainEnd at hq
      split at hq
      next hloop =>
        cases hq
        refine left_lt_of_main ?_ fun _ => Nat.le_refl _
        simp only [Program.setMain, Main.left, hloop]
        omega
      next hloop =>
        cases hq
        refine left_lt_of_main ?_ fun _ => Nat.le_refl _
        simp only [Program.setMain, Main.left, hloop]
        omega
      next hloop =>
        cases hq
        refine left_lt_of_main ?_ fun _ => Nat.le_refl _
        simp only [Program.setMain, Main.left, hloop]
        omega
      next hloop =>
        cases hq
        refine left_lt_of_main ?_ fun _ => Nat.le_refl _
        simp only [Program.setMain, Main.left, hloop]
        omega
      next => cases hq
  | @putCall i key k hw hlt hk =>
      obtain ⟨hidle, hstride⟩ : p.memory.thread i = ⟨none, []⟩ ∧ OnStride i key := by
        have hthis := hright.workers i
        rwa [hw] at hthis
      have hturns := turnsLeft_next hstride.1 hlt
      refine left_lt_of_worker (Nat.le_refl _) (i := i) ?_ fun j hji => ?_
      · simp [Program.setWorker, hw, Worker.left, State.giveCall, hidle, Thread.left, hturns]
        omega
      · simp only [Program.setWorker, Function.update_of_ne hji]
        refine Nat.le_of_eq (left_congr ?_ fun _ => rfl)
        exact Function.update_of_ne hji ..
  | @putExit i key hw hge =>
      apply left_setWorker_lt hw
      simp only [Worker.left]
      omega
  | @putNext i key hw hidle =>
      obtain ⟨hstride, hlt⟩ : OnStride i key ∧ key < keys.length := by
        have hthis := hright.workers i
        rwa [hw] at hthis
      apply left_setWorker_lt hw
      rw [hfit.wrap_next hstride.1 hlt]
      have hskip := turnsLeft_skip keys hfit.pos hstride.1
      simp only [Worker.left]
      omega
  | @getCall i key lost k hw hlt hk =>
      have hthis := hright.workers i
      rw [hw] at hthis
      have hjoined := (hright.placed i).putsJoined (hw ▸ trivial)
      have hwalk := walk_le_of_ahead (hright.ahead hfit.pos hjoined hk)
      apply left_setWorker_lt hw
      simp only [Worker.left, turnsLeft_next hthis.2.2.1 hlt, Nat.add_mul, Nat.one_mul]
      unfold getTurn
      omega
  | @getExit i key lost hw hge =>
      apply left_setWorker_lt hw
      exact Nat.succ_pos _
  | @missed i key lost hw =>
      have hthis := hright.workers i
      rw [hw] at hthis
      obtain ⟨-, -, -, -, k, -, hahead⟩ := hthis
      exact absurd hahead not_ahead_none
  | @found i key lost b k e hw hk he hmatch =>
      have hthis := hright.workers i
      rw [hw] at hthis
      obtain ⟨-, -, hstride, hlt, -⟩ := hthis
      have hskip := getTurn_mul_le keys (turnsLeft_skip keys hfit.pos hstride.1)
      apply left_setWorker_lt hw
      rw [hfit.wrap_next hstride.1 hlt]
      simp only [Worker.left]
      omega
  | @other i key lost b k k' e hw hk he hkey hdiffer =>
      apply left_setWorker_lt hw
      simp only [Worker.left]
      omega
  | @follow i key lost b e next hw he hnext =>
      have hthis := hright.workers i
      rw [hw] at hthis
      obtain ⟨-, -, -, -, k, x, next', -, hnode, hahead⟩ := hthis
      have hentry := heap_of_nodeAt hnode
      rw [he, Option.some.injEq] at hentry
      subst hentry
      cases hnext
      apply left_setWorker_lt hw
      simp only [Worker.left, walk_of_ahead_next hnode hahead]
      omega
  | memory hmove =>
      obtain ⟨t, key, hw, hleft, hothers, hnone⟩ := hright.inserting hmove
      refine left_lt_of_worker (Nat.le_refl _) (i := t) ?_ fun j hjt => ?_
      · simp only [hw, Worker.left]
        omega
      · exact (left_congr (hothers j hjt) fun hget => absurd hget (hnone j)).le

/-! ## No state is stuck -/

/-- Memory that `malloc` can still return. -/
def HasFresh (heap : Addr → Option BucketEntry) : Prop :=
  ∃ bound : Nat, ∀ a : Nat, bound ≤ a → heap a = none

theorem HasFresh.update {heap : Addr → Option BucketEntry} (h : HasFresh heap) (a : Nat)
    (entry : Option BucketEntry) : HasFresh (Function.update heap a entry) := by
  obtain ⟨bound, hbound⟩ := h
  refine ⟨max bound (a + 1), fun c hc => ?_⟩
  have hne : c ≠ a := by omega
  rw [Function.update_of_ne hne]
  exact hbound c (by omega)

theorem Move.hasFresh {τ : Type*} [DecidableEq τ] {s s' : State τ Lock}
    {events : List (Inserted τ)} (h : Move lockOf s s' events) (hfresh : HasFresh s.heap) :
    HasFresh s'.heap := by
  cases h with
  | malloc ht he => exact hfresh.update ..
  | lock hf hstage hfree => exact hfresh
  | load hf hstage => exact hfresh
  | next hf hstage he => exact hfresh.update ..
  | key hf hstage he => exact hfresh.update ..
  | val hf hstage he => exact hfresh.update ..
  | store hf hstage => exact hfresh
  | unlock hf hstage => exact hfresh

theorem Turn.hasFresh (h : Turn lockOf keys p q events) (hfresh : HasFresh p.memory.heap) :
    HasFresh q.memory.heap := by
  cases h with
  | memory hmove => exact hmove.hasFresh hfresh
  | mainEnd hi hq =>
      unfold Program.mainEnd at hq
      split at hq <;> cases hq <;> exact hfresh
  | _ => exact hfresh

/-- A thread inside its critical section can go on. -/
theorem Sound.run_isSome {τ : Type*} [DecidableEq τ] {calls : τ → List (Nat × Int)}
    {history : List (Inserted τ)} {s : State τ Lock} (h : Sound lockOf calls history s) {t : τ}
    {f : Frame} (hf : (s.thread t).frame = some f) (hstage : f.stage ≠ .lock) :
    (s.step (fun b => some (lockOf b)) (.run t)).isSome := by
  obtain ⟨e, he⟩ := Option.ne_none_iff_exists'.mp (h.separate.allocated t f hf)
  cases hs : f.stage with
  | lock => exact absurd hs hstage
  | _ => simp [State.step, State.advance, hf, hs, he]

/-- A thread with a call to make or to finish can go on, or another one holds the
lock it waits for and can go on. -/
theorem Sound.exists_step {τ : Type*} [DecidableEq τ] {calls : τ → List (Nat × Int)}
    {history : List (Inserted τ)} {s : State τ Lock} (h : Sound lockOf calls history s)
    (hfresh : HasFresh s.heap) {t : τ} (hbusy : s.thread t ≠ ⟨none, []⟩) :
    ∃ a, (s.step (fun b => some (lockOf b)) a).isSome := by
  cases hf : (s.thread t).frame with
  | none =>
      obtain ⟨bound, hbound⟩ := hfresh
      cases hcalls : (s.thread t).calls with
      | nil => exact absurd (by rw [← hf, ← hcalls]) hbusy
      | cons call calls =>
          have ht : s.thread t = ⟨none, call :: calls⟩ := by rw [← hf, ← hcalls]
          exact ⟨.malloc t bound, by simp [State.step, ht, hbound bound (Nat.le_refl _)]⟩
  | some f =>
      by_cases hstage : f.stage = .lock
      · cases hholder : s.holder (lockOf (bucketOf f.key)) with
        | none => exact ⟨.run t, by simp [State.step, State.advance, hf, hstage, hholder]⟩
        | some u =>
            obtain ⟨g, hg, hgs, -⟩ := h.locks.owner _ u hholder
            exact ⟨.run u, h.run_isSome hg hgs⟩
      · exact ⟨.run t, h.run_isSome hf hstage⟩

theorem isSome_of_workerStep {i : Fin n} (h : (p.workerStep keys i).isSome) :
    ∃ a, (p.step (fun b => some (lockOf b)) keys a).isSome :=
  ⟨.worker i, by simpa [Program.step] using h⟩

/-- A thread that has not come to its end can go on, or waits for one that can. -/
theorem Right.worker_unblocked (h : Right lockOf keys history p)
    (hfresh : HasFresh p.memory.heap) (i : Fin n) (habsent : p.worker i ≠ .absent)
    (hdone : p.worker i ≠ .putDone) (hreturned : ∀ lost, p.worker i ≠ .returned lost) :
    ∃ a, (p.step (fun b => some (lockOf b)) keys a).isSome := by
  have hright := h.workers i
  cases hw : p.worker i with
  | absent => exact absurd hw habsent
  | putDone => exact absurd hw hdone
  | returned lost => exact absurd hw (hreturned lost)
  | put key =>
      rw [hw] at hright
      apply isSome_of_workerStep (i := i)
      by_cases hlt : key < keys.length
      · obtain ⟨k, hk⟩ := keyAt_of_lt hright.2.1 hlt
        simp [Program.workerStep, hw, hlt, hk]
      · simp [Program.workerStep, hw, hlt]
  | inserting key =>
      by_cases hidle : p.memory.thread i = ⟨none, []⟩
      · exact isSome_of_workerStep (i := i) (by simp [Program.workerStep, hw, hidle])
      · obtain ⟨a, ha⟩ := h.sound.exists_step hfresh hidle
        exact ⟨.memory a, by simpa [Program.step] using ha⟩
  | get key lost =>
      rw [hw] at hright
      apply isSome_of_workerStep (i := i)
      by_cases hlt : key < keys.length
      · obtain ⟨k, hk⟩ := keyAt_of_lt hright.2.2.1 hlt
        simp [Program.workerStep, hw, hlt, hk]
      · simp [Program.workerStep, hw, hlt]
  | probe key lost b =>
      rw [hw] at hright
      apply isSome_of_workerStep (i := i)
      obtain ⟨-, -, -, -, k, hk, cells, hlinked, -, cell, hcell, -⟩ := hright
      cases cells with
      | nil => cases hcell
      | cons head rest =>
          obtain ⟨rfl, next, hnode, -⟩ := hlinked
          simp [Program.workerStep, hw, hk, heap_of_nodeAt hnode]
  | follow key lost b =>
      rw [hw] at hright
      obtain ⟨-, -, -, -, k, x, next, -, hnode, -⟩ := hright
      exact isSome_of_workerStep (i := i)
        (by simp [Program.workerStep, hw, heap_of_nodeAt hnode])

theorem Right.unblocked (h : Right lockOf keys history p) (hfresh : HasFresh p.memory.heap)
    (hdone : p.main.loop ≠ .done) :
    ∃ a, (p.step (fun b => some (lockOf b)) keys a).isSome := by
  by_cases hi : p.main.i < n
  · have hplaced := h.placed ⟨p.main.i, hi⟩
    cases hloop : p.main.loop with
    | createPut =>
        exact ⟨.main, by simp [Program.step, Program.mainStep, Program.mainBody, hi, hloop]⟩
    | createGet =>
        exact ⟨.main, by simp [Program.step, Program.mainStep, Program.mainBody, hi, hloop]⟩
    | joinPut =>
        simp only [Main.Allows, hloop] at hplaced
        by_cases hw : p.worker ⟨p.main.i, hi⟩ = .putDone
        · exact ⟨.main, by simp [Program.step, Program.mainStep, Program.mainBody, hi, hloop, hw]⟩
        · refine h.worker_unblocked hfresh ⟨p.main.i, hi⟩ ?_ hw ?_
          · intro heq
            simp [heq, Worker.Putting] at hplaced
          · intro lost heq
            simp [heq, Worker.Putting] at hplaced
    | joinGet =>
        simp only [Main.Allows, hloop] at hplaced
        by_cases hw : ∃ lost, p.worker ⟨p.main.i, hi⟩ = .returned lost
        · obtain ⟨lost, hw⟩ := hw
          exact ⟨.main, by simp [Program.step, Program.mainStep, Program.mainBody, hi, hloop, hw]⟩
        · refine h.worker_unblocked hfresh ⟨p.main.i, hi⟩ ?_ ?_ fun lost heq => hw ⟨lost, heq⟩
          · intro heq
            simp [heq, Worker.Getting] at hplaced
          · intro heq
            simp [heq, Worker.Getting] at hplaced
    | done => exact absurd hloop hdone
  · refine ⟨.main, ?_⟩
    cases hloop : p.main.loop with
    | done => exact absurd hloop hdone
    | _ => simp [Program.step, Program.mainStep, Program.mainEnd, hi, hloop]

/-! ## No key is lost -/

/-- What the program guarantees, in whatever order its threads run. -/
structure Lossless (lockOf : Bucket → Option Lock) (keys : List Nat) (n : Nat) : Prop where
  /-- Past the barrier a chain has exactly the entries of the keys of its bucket. -/
  entries : ∀ (history : List (Inserted (Fin n))) p, Program.Reachable lockOf keys history p →
    p.main.PutsJoined → ∀ b, ∃ cells, Linked (nodeAt p.memory.heap) (p.memory.table b) cells ∧
      (cells.map Prod.snd).Perm (stored keys n b)
  /-- A `get_phase` thread that returns has lost no key. -/
  returned : ∀ (history : List (Inserted (Fin n))) p, Program.Reachable lockOf keys history p →
    ∀ i lost, p.worker i = .returned lost → lost = 0
  /-- At the end of `main` every `get_phase` thread has returned, and the total is 0. -/
  finished : ∀ (history : List (Inserted (Fin n))) p, Program.Reachable lockOf keys history p →
    p.main.loop = .done → (∀ i, p.worker i = .returned 0) ∧ p.main.totalLost = 0
  /-- Before the end of `main` some step can be taken. -/
  unblocked : ∀ (history : List (Inserted (Fin n))) p, Program.Reachable lockOf keys history p →
    p.main.loop ≠ .done → ∃ a, (p.step lockOf keys a).isSome
  /-- No run goes on for ever. -/
  bounded : ∃ bound, ∀ actions, (run (fun p : Program n Lock => p.step lockOf keys)
    Program.start actions).isSome → actions.length ≤ bound

theorem hasFresh_of_reach
    (h : Program.Reachable (fun b => some (lockOf b)) keys history p) :
    HasFresh p.memory.heap :=
  h.invariant ⟨0, fun _ _ => rfl⟩
    fun _ _ _ _ _ hfresh _ hstep => (step_turn hstep).hasFresh hfresh

theorem lossless_of_locks (lockOf : Bucket → Lock) (hfit : ThreadsFit keys n) :
    Lossless (fun b => some (lockOf b)) keys n where
  entries history p hreach hjoined b := by
    have hright := right_of_reach hfit hreach
    exact ⟨_, hright.sound.chains b, hright.chains hfit.pos hjoined b⟩
  returned history p hreach i lost hw := by
    have hworker := (right_of_reach hfit hreach).workers i
    rw [hw] at hworker
    exact hworker.2
  finished history p hreach hdone := by
    have hright := right_of_reach hfit hreach
    refine ⟨fun i => ?_, hright.total⟩
    simpa [Main.Allows, hdone] using hright.placed i
  unblocked history p hreach hdone :=
    (right_of_reach hfit hreach).unblocked (hasFresh_of_reach hreach) hdone
  bounded := by
    refine ⟨(Program.start : Program n Lock).left keys, fun actions hrun => ?_⟩
    obtain ⟨⟨q, events⟩, hq⟩ := Option.isSome_iff_exists.mp hrun
    refine Nat.le_of_add_right_le (length_add_le_of_run
      (fun p => ∃ history, Right lockOf keys history p) (Program.left keys) ?_
      ⟨[], right_start⟩ hq)
    rintro p a q events ⟨history, hright⟩ hstep
    exact ⟨⟨_, (step_turn hstep).right hfit hright⟩, (step_turn hstep).left_lt hfit hright⟩

/-- Whatever the schedule, the table has all keys after the put phase, and the get
phase finds them all. -/
theorem phases_lossless (keys : List Nat) (n : Nat) (hfit : ThreadsFit keys n) :
    Lossless mutexLocks keys n ∧ Lossless spinlock keys n :=
  ⟨lossless_of_locks id hfit, lossless_of_locks (fun _ => ()) hfit⟩

theorem phases_lossless_twoThreads : ThreadsFit [7, 2, 7] 2 ∧
    Lossless mutexLocks [7, 2, 7] 2 ∧ Lossless spinlock [7, 2, 7] 2 := by
  have hfit : ThreadsFit [7, 2, 7] 2 := ⟨by decide, by decide, by decide⟩
  exact ⟨hfit, phases_lossless [7, 2, 7] 2 hfit⟩

end OsCourse.HashTable
