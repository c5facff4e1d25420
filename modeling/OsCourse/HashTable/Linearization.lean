import Mathlib.Data.List.Induction
import OsCourse.HashTable.Locked

/-! # Inserts take effect one at a time

A concurrent run is compared with inserts that run one after the other. Under
locks an `insert` takes effect at its store into the table, so the order of
the stores is the sequential order; in the other direction, the threads can
follow any given order without getting in each other's way.
-/

namespace OsCourse.HashTable

open LinkedList Transition

variable {τ Lock : Type*} [DecidableEq τ] [DecidableEq Lock]

/-! ## The sequential table -/

/-- A table as its readers see it: the pairs of each bucket along its chain. -/
abbrev Contents := Bucket → List (Nat × Int)

/-- What an `insert` does when it runs alone. -/
def Contents.insert (c : Contents) (call : Nat × Int) : Contents :=
  Function.update c (bucketOf call.1) (call :: c (bucketOf call.1))

/-- The table after the calls have run one at a time. -/
def runInserts (order : List (τ × Nat × Int)) : Contents :=
  (order.map Prod.snd).foldl Contents.insert fun _ => []

/-- The order has exactly the calls of every thread, each thread's in its own
order. -/
def KeepsOrder (calls : τ → List (Nat × Int)) (order : List (τ × Nat × Int)) : Prop :=
  ∀ t, callsOf order t = calls t

/-- The last insert of a key. -/
def lastInsert (history : List (Inserted τ)) (key : Nat) : Option (Inserted τ) :=
  history.reverse.find? fun x => x.key = key

/-- All threads have returned from all their calls. -/
def State.Finished (s : State τ Lock) : Prop := ∀ t, s.thread t = ⟨none, []⟩

/-- The chains of the table are these. -/
def State.Holds (s : State τ Lock) (c : Contents) : Prop :=
  ∀ b, ∃ cells, Linked (nodeAt s.heap) (s.table b) cells ∧ cells.map Prod.snd = c b

/-- The configurations of the program with these locks and calls. -/
def Reachable (lockOf : Bucket → Option Lock) (calls : τ → List (Nat × Int)) :
    List (Inserted τ) → State τ Lock → Prop :=
  Reach (fun s => State.step s lockOf) anyStep (State.start calls)

/-- The tables the program can finish with. -/
def finalTables (lockOf : Bucket → Option Lock) (calls : τ → List (Nat × Int)) : Set Contents :=
  {c | ∃ history s, Reachable lockOf calls history s ∧ s.Finished ∧ s.Holds c}

omit [DecidableEq τ] in
theorem runInserts_append (order : List (τ × Nat × Int)) (x : τ × Nat × Int) :
    runInserts (order ++ [x]) = (runInserts order).insert x.2 := by
  simp [runInserts]

omit [DecidableEq τ] in
/-- The sequential table of a history has the cells of the history. -/
theorem runInserts_history (history : List (Inserted τ)) (b : Bucket) :
    runInserts (history.map Inserted.call) b = (cellsOf history b).map Prod.snd := by
  induction history using List.reverseRecOn with
  | nil => rfl
  | append_singleton history x ih =>
      rw [List.map_append, List.map_singleton, runInserts_append, Contents.insert]
      by_cases hb : bucketOf x.key = b
      · subst hb
        simp [Inserted.call, ih, cellsOf]
      · simp [Inserted.call, ih, cellsOf, hb, Ne.symm hb]

omit [DecidableEq τ] [DecidableEq Lock] in
theorem State.Holds.unique {s : State τ Lock} {c c' : Contents} (h : s.Holds c)
    (h' : s.Holds c') : c = c' := by
  funext b
  obtain ⟨cells, hcells, hc⟩ := h b
  obtain ⟨cells', hcells', hc'⟩ := h' b
  rw [← hc, ← hc', hcells.unique hcells']

/-! ## Searching a chain -/

omit [DecidableEq τ] [DecidableEq Lock] in
theorem heap_of_nodeAt {heap : Addr → Option BucketEntry} {a : Addr} {x : Nat × Int}
    {next : Option Addr} (h : nodeAt heap a = some (x, next)) :
    heap a = some ⟨some x.1, some x.2, some next⟩ := by
  unfold nodeAt at h
  split at h
  next key val next' hheap =>
    cases h
    exact hheap
  next => cases h

/-- `retrieve` finds the first cell with the key. -/
theorem retrieveLoop_of_linked {heap : Addr → Option BucketEntry} {ptr : Option Addr}
    {cells : List (Addr × Nat × Int)} (h : Linked (nodeAt heap) ptr cells) (key : Nat)
    {fuel : Nat} (hfuel : cells.length ≤ fuel) :
    retrieveLoop heap key fuel ptr =
      some ((cells.find? fun cell => cell.2.1 = key).map Prod.fst) := by
  induction cells generalizing ptr fuel with
  | nil =>
      obtain rfl : ptr = none := h
      cases fuel <;> rfl
  | cons cell rest ih =>
      obtain ⟨rfl, next, hnode, hrest⟩ := h
      cases fuel with
      | zero => simp at hfuel
      | succ fuel =>
          have hloop := ih hrest (Nat.le_of_succ_le_succ hfuel)
          rw [retrieveLoop, heap_of_nodeAt hnode]
          by_cases hkey : cell.2.1 = key
          · simp [hkey]
          · simp [hkey, hloop]

omit [DecidableEq τ] in
theorem length_cellsOf_le (history : List (Inserted τ)) (b : Bucket) :
    (cellsOf history b).length ≤ history.length := by
  simpa [cellsOf] using List.length_filter_le _ history

omit [DecidableEq τ] in
theorem mem_cellsOf {history : List (Inserted τ)} {x : Inserted τ} (h : x ∈ history) :
    (x.entry, x.key, x.val) ∈ cellsOf history (bucketOf x.key) := by
  simp only [cellsOf, List.mem_reverse, List.mem_map, List.mem_filter]
  exact ⟨x, ⟨h, by simp⟩, rfl⟩

omit [DecidableEq τ] in
theorem mem_of_lastInsert {history : List (Inserted τ)} {key : Nat} {x : Inserted τ}
    (h : x ∈ lastInsert history key) : x ∈ history ∧ x.key = key := by
  have hmem := List.mem_of_find?_eq_some h
  have hkey := List.find?_some h
  exact ⟨List.mem_reverse.mp hmem, of_decide_eq_true hkey⟩

omit [DecidableEq τ] in
/-- The first cell with a key is the last insert of it. -/
theorem find_cellsOf (history : List (Inserted τ)) (key : Nat) :
    ((cellsOf history (bucketOf key)).find? fun cell => cell.2.1 = key).map Prod.fst =
      (lastInsert history key).map Inserted.entry := by
  have hmatch : ∀ x : Inserted τ, (bucketOf x.key = bucketOf key ∧ x.key = key) ↔ x.key = key :=
    fun x => ⟨And.right, fun hkey => ⟨congrArg bucketOf hkey, hkey⟩⟩
  rw [cellsOf, lastInsert, ← List.map_reverse, ← List.filter_reverse, List.find?_map,
    List.find?_filter]
  simp only [Function.comp_def, Option.map_map, decide_eq_true_eq, hmatch]

/-! ## Following an order -/

/-- No thread is in an `insert`, and no lock is held. -/
structure State.Idle (s : State τ Lock) : Prop where
  frame : ∀ t, (s.thread t).frame = none
  free : ∀ l, s.holder l = none

/-- The steps of one `insert`. -/
def insertSteps (t : τ) (e : Addr) : List (Action τ) := .malloc t e :: List.replicate 7 (.run t)

/-- The steps of calls that run one at a time, with the addresses from `e` on. -/
def oneAtATime : List (τ × Nat × Int) → Addr → List (Action τ)
  | [], _ => []
  | x :: rest, e => insertSteps x.1 e ++ oneAtATime rest (e + 1)

/-- The state after one `insert` that ran alone. -/
def State.afterInsert (s : State τ Lock) (t : τ) (key : Nat) (val : Int) (e : Addr)
    (calls : List (Nat × Int)) : State τ Lock where
  heap := Function.update s.heap e (some ⟨some key, some val, some (s.table (bucketOf key))⟩)
  table := Function.update s.table (bucketOf key) (some e)
  holder := s.holder
  thread := Function.update s.thread t ⟨none, calls⟩

/-- The state with thread `t` in an `insert`, its entry as written so far. -/
def State.inInsert (s : State τ Lock) (t : τ) (calls : List (Nat × Int)) (f : Frame)
    (entry : BucketEntry) : State τ Lock where
  heap := Function.update s.heap f.e (some entry)
  table := s.table
  holder := s.holder
  thread := Function.update s.thread t ⟨some f, calls⟩

variable {lockOf : Bucket → Lock} {s : State τ Lock} {t : τ} {calls : List (Nat × Int)}

section InInsert

variable {key : Nat} {val : Int} {e : Addr} {stage : Stage} {entry : BucketEntry}

omit [DecidableEq Lock] in
theorem inInsert_heap : (s.inInsert t calls ⟨key, val, e, stage⟩ entry).heap e = some entry :=
  Function.update_self ..

omit [DecidableEq Lock] in
theorem inInsert_goTo (stage' : Stage) :
    (s.inInsert t calls ⟨key, val, e, stage⟩ entry).goTo t ⟨key, val, e, stage⟩ stage' =
      s.inInsert t calls ⟨key, val, e, stage'⟩ entry := by
  simp [State.goTo, State.setFrame, State.inInsert]

omit [DecidableEq Lock] in
theorem inInsert_setEntry (entry' : BucketEntry) :
    (s.inInsert t calls ⟨key, val, e, stage⟩ entry).setEntry e entry' =
      s.inInsert t calls ⟨key, val, e, stage⟩ entry' := by
  simp [State.setEntry, State.inInsert]

/-- A step of a thread in an `insert` is the one of its stage. -/
theorem step_inInsert (lockOf : Bucket → Option Lock) {f : Frame} :
    (s.inInsert t calls f entry).step lockOf (.run t) =
      (s.inInsert t calls f entry).advance lockOf t f := by
  simp [State.step, State.inInsert]

end InInsert

section Stages

variable {key : Nat} {val : Int} {e : Addr} {entry : BucketEntry}

theorem step_malloc (ht : s.thread t = ⟨none, (key, val) :: calls⟩) (he : s.heap e = none) :
    s.step (fun b => some (lockOf b)) (.malloc t e) =
      some (s.inInsert t calls ⟨key, val, e, .lock⟩ ⟨none, none, none⟩, []) := by
  simp only [State.step, ht, he, if_true]
  rfl

theorem step_lock (hfree : s.holder (lockOf (bucketOf key)) = none) :
    (s.inInsert t calls ⟨key, val, e, .lock⟩ entry).step (fun b => some (lockOf b)) (.run t) =
      some ((s.setHolder (lockOf (bucketOf key)) (some t)).inInsert t calls
        ⟨key, val, e, .load⟩ entry, []) := by
  rw [step_inInsert, State.advance, Option.bind_some]
  refine (if_pos hfree).trans ?_
  exact congrArg (fun s => some (s, [])) (inInsert_goTo (s := s.setHolder _ _) .load)

theorem step_load :
    (s.inInsert t calls ⟨key, val, e, .load⟩ entry).step (fun b => some (lockOf b)) (.run t) =
      some (s.inInsert t calls ⟨key, val, e, .next (s.table (bucketOf key))⟩ entry, []) := by
  rw [step_inInsert, State.advance, inInsert_goTo]
  rfl

theorem step_next {head : Option Addr} :
    (s.inInsert t calls ⟨key, val, e, .next head⟩ entry).step (fun b => some (lockOf b)) (.run t) =
      some (s.inInsert t calls ⟨key, val, e, .key⟩ { entry with next := some head }, []) := by
  rw [step_inInsert]
  simp only [State.advance, inInsert_heap, Option.map_some, inInsert_setEntry, inInsert_goTo]

theorem step_key :
    (s.inInsert t calls ⟨key, val, e, .key⟩ entry).step (fun b => some (lockOf b)) (.run t) =
      some (s.inInsert t calls ⟨key, val, e, .val⟩ { entry with key := some key }, []) := by
  rw [step_inInsert]
  simp only [State.advance, inInsert_heap, Option.map_some, inInsert_setEntry, inInsert_goTo]

theorem step_val :
    (s.inInsert t calls ⟨key, val, e, .val⟩ entry).step (fun b => some (lockOf b)) (.run t) =
      some (s.inInsert t calls ⟨key, val, e, .store⟩ { entry with val := some val }, []) := by
  rw [step_inInsert]
  simp only [State.advance, inInsert_heap, Option.map_some, inInsert_setEntry, inInsert_goTo]

theorem step_store :
    (s.inInsert t calls ⟨key, val, e, .store⟩ entry).step (fun b => some (lockOf b)) (.run t) =
      some ((s.setTable (bucketOf key) (some e)).inInsert t calls ⟨key, val, e, .unlock⟩ entry,
        [⟨t, key, val, e⟩]) := by
  rw [step_inInsert, State.advance]
  exact congrArg (fun s => some (s, [_])) (inInsert_goTo (s := s.setTable _ _) .unlock)

theorem step_unlock :
    (s.inInsert t calls ⟨key, val, e, .unlock⟩ entry).step (fun b => some (lockOf b)) (.run t) =
      some (((s.inInsert t calls ⟨key, val, e, .unlock⟩ entry).setHolder
        (lockOf (bucketOf key)) none).setFrame t none, []) := by
  rw [step_inInsert, State.advance, Option.map_some]

end Stages

variable (lockOf) in
theorem run_insertSteps (hidle : s.Idle) {key : Nat} {val : Int}
    (ht : s.thread t = ⟨none, (key, val) :: calls⟩) {e : Addr} (he : s.heap e = none) :
    run (fun s => State.step s fun b => some (lockOf b)) s (insertSteps t e) =
      some (s.afterInsert t key val e calls, [⟨t, key, val, e⟩]) := by
  simp only [insertSteps, List.replicate]
  refine Eq.trans (run_of_silent (step_malloc ht he)) ?_
  refine Eq.trans (run_of_silent (step_lock (hidle.free _))) ?_
  refine Eq.trans (run_of_silent step_load) ?_
  refine Eq.trans (run_of_silent step_next) ?_
  refine Eq.trans (run_of_silent step_key) ?_
  refine Eq.trans (run_of_silent step_val) ?_
  simp only [run, step_store, step_unlock, Option.bind_some, Option.map_some]
  simp [State.setFrame, State.setHolder, State.inInsert, State.setTable, State.afterInsert,
    hidle.free]

omit [DecidableEq Lock] in
theorem State.Idle.afterInsert (hidle : s.Idle) (t : τ) (key : Nat) (val : Int) (e : Addr)
    (calls : List (Nat × Int)) : (s.afterInsert t key val e calls).Idle := by
  refine ⟨fun u => ?_, hidle.free⟩
  by_cases hut : u = t
  · simp [State.afterInsert, hut]
  · simp [State.afterInsert, hut, hidle.frame u]

omit [DecidableEq τ] [DecidableEq Lock] in
theorem State.Idle.thread_eq (hidle : s.Idle) {t : τ} {calls : List (Nat × Int)}
    (h : (s.thread t).calls = calls) : s.thread t = ⟨none, calls⟩ := by
  rw [← h, ← hidle.frame t]

/-- From an idle state the threads can make their calls one at a time, in any
order that keeps each thread's own. -/
theorem run_oneAtATime (hidle : s.Idle) (bound : Nat)
    (hfresh : ∀ a : Nat, bound ≤ a → s.heap a = none) (order : List (τ × Nat × Int))
    (horder : ∀ t, (s.thread t).calls = callsOf order t) :
    ∃ history s', run (fun s => State.step s fun b => some (lockOf b)) s (oneAtATime order bound) =
      some (s', history) ∧ s'.Finished ∧ history.map Inserted.call = order := by
  induction order generalizing s bound with
  | nil => exact ⟨[], s, rfl, fun t => hidle.thread_eq (horder t), rfl⟩
  | cons x rest ih =>
      obtain ⟨t, key, val⟩ := x
      have ht : s.thread t = ⟨none, (key, val) :: callsOf rest t⟩ :=
        hidle.thread_eq ((horder t).trans (by simp [callsOf]))
      have hrun := run_insertSteps lockOf hidle ht (hfresh bound (Nat.le_refl _))
      have hfresh' : ∀ a : Nat, bound + 1 ≤ a →
          (s.afterInsert t key val bound (callsOf rest t)).heap a = none := by
        intro a ha
        have hne : a ≠ bound := by omega
        simpa [State.afterInsert, hne] using hfresh a (by omega)
      have horder' : ∀ u, ((s.afterInsert t key val bound (callsOf rest t)).thread u).calls =
          callsOf rest u := by
        intro u
        by_cases hut : u = t
        · simp [State.afterInsert, hut]
        · simpa [State.afterInsert, hut, callsOf, Ne.symm hut] using horder u
      obtain ⟨history, s', hrest, hfinished, hmap⟩ :=
        ih (hidle.afterInsert ..) (bound + 1) hfresh' horder'
      exact ⟨_, s', run_append hrun hrest, hfinished, by simp [Inserted.call, hmap]⟩

/-! ## Linearization -/

/-- The program is equivalent to inserts that run one at a time. -/
structure Linearizes (lockOf : Bucket → Option Lock) (calls : τ → List (Nat × Int)) : Prop where
  /-- The stores of a finished run are such an order, and the table is that of
  the order. -/
  sequential : ∀ history s, Reachable lockOf calls history s → s.Finished →
    KeepsOrder calls (history.map Inserted.call) ∧
      s.Holds (runInserts (history.map Inserted.call))
  /-- In every such order the calls can run one at a time to the end. -/
  realized : ∀ order, KeepsOrder calls order → ∃ history s,
    run (fun s => State.step s lockOf) (State.start calls) (oneAtATime order 0) =
      some (s, history) ∧ s.Finished ∧ history.map Inserted.call = order
  /-- After a finished run `retrieve` returns the entry of the last insert, which
  has the pair that was inserted. -/
  retrieved : ∀ history s, Reachable lockOf calls history s → s.Finished → ∀ key,
    (∀ fuel, history.length ≤ fuel →
      s.retrieve fuel key = some ((lastInsert history key).map Inserted.entry)) ∧
    ∀ x ∈ lastInsert history key, ∃ next, s.heap x.entry = some ⟨some key, some x.val, some next⟩

theorem linearizes_of_locks (lockOf : Bucket → Lock) (calls : τ → List (Nat × Int)) :
    Linearizes (fun b => some (lockOf b)) calls where
  sequential history s hreach hfinished := by
    have hsound := sound_of_reach hreach
    refine ⟨fun t => ?_, fun b => ⟨_, hsound.chains b, (runInserts_history history b).symm⟩⟩
    have horder := hsound.order t
    rwa [hfinished t, Thread.pending, List.append_nil] at horder
  realized order horder :=
    run_oneAtATime ⟨fun _ => rfl, fun _ => rfl⟩ 0 (fun _ _ => rfl) order fun t => (horder t).symm
  retrieved history s hreach hfinished key := by
    have hchain := (sound_of_reach hreach).chains (bucketOf key)
    refine ⟨fun fuel hfuel => ?_, fun x hx => ?_⟩
    · have hlength : (cellsOf history (bucketOf key)).length ≤ fuel :=
        Nat.le_trans (length_cellsOf_le history _) hfuel
      rw [State.retrieve, retrieveLoop_of_linked hchain key hlength, find_cellsOf]
    · obtain ⟨hmem, rfl⟩ := mem_of_lastInsert hx
      obtain ⟨next, hnode⟩ := hchain.node_of_mem (mem_cellsOf hmem)
      exact ⟨next, heap_of_nodeAt hnode⟩

theorem finalTables_eq {lockOf : Bucket → Option Lock} {calls : τ → List (Nat × Int)}
    (h : Linearizes lockOf calls) :
    finalTables lockOf calls = {c | ∃ order, KeepsOrder calls order ∧ c = runInserts order} := by
  ext c
  constructor
  · rintro ⟨history, s, hreach, hfinished, hholds⟩
    obtain ⟨hkeeps, htable⟩ := h.sequential history s hreach hfinished
    exact ⟨_, hkeeps, hholds.unique htable⟩
  · rintro ⟨order, hkeeps, rfl⟩
    obtain ⟨history, s, hrun, hfinished, rfl⟩ := h.realized order hkeeps
    have hreach : Reachable lockOf calls history s :=
      Reach.append_run .start _ (admitted_anyStep _ _) hrun
    exact ⟨history, s, hreach, hfinished, (h.sequential history s hreach hfinished).2⟩

/-- Both programs are equivalent to inserts one at a time, and so they have the
same final tables. -/
theorem insert_linearizes (calls : τ → List (Nat × Int)) :
    Linearizes mutexLocks calls ∧ Linearizes spinlock calls ∧
      finalTables mutexLocks calls = finalTables spinlock calls := by
  have hmutex : Linearizes mutexLocks calls := linearizes_of_locks id calls
  have hspin : Linearizes spinlock calls := linearizes_of_locks (fun _ => ()) calls
  exact ⟨hmutex, hspin, (finalTables_eq hmutex).trans (finalTables_eq hspin).symm⟩

end OsCourse.HashTable
