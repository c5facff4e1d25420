import OsCourse.HashTable.Racy
import OsCourse.Lib.LostUpdates

/-! # What survives without locks

An `insert` of `parallel_hashtable.c` is a push onto the list of its bucket in
two accesses, the load of `table[i]` and the store into it. Which entries the
table holds after a run therefore depends on the order of these accesses only,
and none is missing exactly if in no bucket two inserts overlap.
-/

namespace OsCourse.HashTable

open LinkedList LostUpdates Transition

variable {τ Lock : Type*} [DecidableEq τ] [DecidableEq Lock]

/-- An access to the array `table`. -/
inductive TableAccess (τ : Type*)
  | load (t : τ) (b : Bucket)
  | store (x : Inserted τ)

/-- The access to `table` of a thread's next step. -/
def State.access (s : State τ Lock) : Action τ → List (TableAccess τ)
  | .malloc _ _ => []
  | .run t =>
      match (s.thread t).frame with
      | none => []
      | some f =>
          match f.stage with
          | .load => [.load t (bucketOf f.key)]
          | .store => [.store ⟨t, f.key, f.val, f.e⟩]
          | _ => []

/-- A step of the program, with its access to `table`. -/
def State.tracedStep (s : State τ Lock) (lockOf : Bucket → Option Lock) (a : Action τ) :
    Option (State τ Lock × List (TableAccess τ)) :=
  (s.step lockOf a).map fun r => (r.1, s.access a)

/-- The configurations of `parallel_hashtable.c`, with the accesses to `table` so far. -/
def Traced (calls : τ → List (Nat × Int)) : List (TableAccess τ) → State τ Empty → Prop :=
  Reach (fun s => State.tracedStep s noLocks) anyStep (State.start calls)

/-- The stores among the accesses. -/
def insertions (trace : List (TableAccess τ)) : List (Inserted τ) :=
  trace.filterMap fun
    | .load _ _ => none
    | .store x => some x

/-- An access as one to the list of a bucket. -/
def TableAccess.to (b : Bucket) : TableAccess τ → Option (Access τ (Addr × Nat × Int))
  | .load t b' => if b' = b then some (.load t) else none
  | .store x => if bucketOf x.key = b then some (.store x.thread (x.entry, x.key, x.val)) else none

/-- The accesses to the list of a bucket, newest first. -/
def accessesTo (trace : List (TableAccess τ)) (b : Bucket) :
    List (Access τ (Addr × Nat × Int)) :=
  (trace.filterMap (TableAccess.to b)).reverse

variable {calls : τ → List (Nat × Int)} {trace : List (TableAccess τ)} {s s' : State τ Empty}
  {history events : List (Inserted τ)}

omit [DecidableEq τ] in
theorem insertions_append (trace more : List (TableAccess τ)) :
    insertions (trace ++ more) = insertions trace ++ insertions more :=
  List.filterMap_append

omit [DecidableEq τ] in
theorem accessesTo_append (trace more : List (TableAccess τ)) (b : Bucket) :
    accessesTo (trace ++ more) b = accessesTo more b ++ accessesTo trace b := by
  rw [accessesTo, List.filterMap_append, List.reverse_append]
  rfl

omit [DecidableEq τ] in
@[simp] theorem accessesTo_load (t : τ) (b c : Bucket) :
    accessesTo [.load t b] c = if b = c then [.load t] else [] := by
  by_cases hb : b = c
  · simp [accessesTo, TableAccess.to, hb]
  · simp [accessesTo, TableAccess.to, hb]

omit [DecidableEq τ] in
@[simp] theorem accessesTo_store (x : Inserted τ) (b : Bucket) :
    accessesTo [.store x] b =
      if bucketOf x.key = b then [.store x.thread (x.entry, x.key, x.val)] else [] := by
  by_cases hb : bucketOf x.key = b
  · simp [accessesTo, TableAccess.to, hb]
  · simp [accessesTo, TableAccess.to, hb]

omit [DecidableEq τ] in
/-- The elements pushed onto a bucket are the cells of its inserts. -/
theorem pushed_accessesTo (trace : List (TableAccess τ)) (b : Bucket) :
    pushed (accessesTo trace b) = cellsOf (insertions trace) b := by
  induction trace using List.reverseRecOn with
  | nil => rfl
  | append_singleton trace access ih =>
      rw [accessesTo_append, insertions_append]
      cases access with
      | load t c =>
          rw [accessesTo_load]
          split <;> simpa [pushed, insertions] using ih
      | store x =>
          rw [accessesTo_store]
          by_cases hb : bucketOf x.key = b
          · simpa [pushed, insertions, cellsOf, hb] using ih
          · simpa [pushed, insertions, cellsOf, hb] using ih

/-! ## The run with its accesses -/

/-- The pointer an `insert` has loaded from `table[i]`, once it has. -/
def State.link (s : State τ Lock) (f : Frame) : Option (Option Addr) :=
  match f.stage with
  | .lock | .load | .unlock => none
  | .next head => some head
  | .key | .val | .store => (s.heap f.e).bind BucketEntry.next

/-- What a step does to `table` and to the pointers loaded from it. -/
inductive TableStep (s : State τ Empty) : State τ Empty → List (TableAccess τ) → Prop
  | quiet {s' : State τ Empty} (htable : s'.table = s.table)
      (hlinks : ∀ u g link, (s'.thread u).frame = some g → s'.link g = some link →
        ∃ f, (s.thread u).frame = some f ∧ f.key = g.key ∧ s.link f = some link) :
      TableStep s s' []
  | load {t : τ} {f : Frame} (hf : (s.thread t).frame = some f) :
      TableStep s (s.goTo t f (.next (s.table (bucketOf f.key)))) [.load t (bucketOf f.key)]
  | store {t : τ} {f : Frame} (hf : (s.thread t).frame = some f) (hstage : f.stage = .store) :
      TableStep s ((s.setTable (bucketOf f.key) (some f.e)).setFrame t none)
        [.store ⟨t, f.key, f.val, f.e⟩]

omit [DecidableEq τ] [DecidableEq Lock] in
theorem link_congr {s s' : State τ Lock} {f : Frame} (h : s'.heap f.e = s.heap f.e) :
    s'.link f = s.link f := by
  simp only [State.link, h]

/-- A thread that writes to its own entry, or leaves it, keeps the link. -/
theorem TableStep.goOn (hsep : Separate history s)
    (hunlocked : ∀ t f, (s.thread t).frame = some f → f.stage ≠ .unlock) {t : τ} {f : Frame}
    (hf : (s.thread t).frame = some f) {stage : Stage} (entry : BucketEntry)
    (hlink : ((s.setEntry f.e entry).goTo t f stage).link { f with stage := stage } = s.link f) :
    TableStep s ((s.setEntry f.e entry).goTo t f stage) [] := by
  refine .quiet rfl ?_
  intro u g link hg hglink
  rw [goTo_frame] at hg
  split at hg
  next hut =>
    cases hg
    exact ⟨f, hut ▸ hf, rfl, hlink ▸ hglink⟩
  next hut =>
    refine ⟨g, hg, rfl, ?_⟩
    have hentry := hsep.setEntry_eq hut hf hg (hunlocked t f hf) (hunlocked u g hg) entry
    rw [← hglink]
    exact (link_congr hentry).symm

/-- The step's access to `table`, and that a store is what it adds to the history. -/
theorem step_tableStep {a : Action τ} (hsep : Separate history s)
    (hunlocked : ∀ t f, (s.thread t).frame = some f → f.stage ≠ .unlock)
    (h : s.step noLocks a = some (s', events)) :
    TableStep s s' (s.access a) ∧ insertions (s.access a) = events := by
  cases a with
  | malloc t e =>
      simp only [State.step] at h
      split at h
      next key val calls ht =>
        split at h
        next he =>
          cases h
          refine ⟨.quiet rfl ?_, rfl⟩
          intro u g link hg hglink
          simp only [Function.update_apply] at hg
          split at hg
          next =>
            cases hg
            cases hglink
          next =>
            have hge : g.e ≠ e := fun heq => hsep.allocated u g hg (heq ▸ he)
            refine ⟨g, hg, rfl, ?_⟩
            rw [← hglink]
            exact (link_congr ((setEntry_heap s e g.e _).trans (if_neg hge))).symm
        next => cases h
      next => cases h
  | run t =>
      obtain ⟨f, hf, h⟩ := Option.bind_eq_some_iff.mp h
      simp only [State.advance] at h
      split at h
      next => cases h
      next hstage =>
        cases h
        simpa [State.access, hf, hstage, insertions] using TableStep.load hf
      next head hstage =>
        obtain ⟨e, he, h⟩ := Option.map_eq_some_iff.mp h
        cases h
        simpa [State.access, hf, hstage, insertions] using TableStep.goOn hsep hunlocked hf
          { e with next := some head } (by simp [State.link, hstage, State.goTo])
      next hstage =>
        obtain ⟨e, he, h⟩ := Option.map_eq_some_iff.mp h
        cases h
        simpa [State.access, hf, hstage, insertions] using TableStep.goOn hsep hunlocked hf
          { e with key := some f.key } (by simp [State.link, hstage, State.goTo, he])
      next hstage =>
        obtain ⟨e, he, h⟩ := Option.map_eq_some_iff.mp h
        cases h
        simpa [State.access, hf, hstage, insertions] using TableStep.goOn hsep hunlocked hf
          { e with val := some f.val } (by simp [State.link, hstage, State.goTo, he])
      next hstage =>
        cases h
        simpa [State.access, hf, hstage, insertions, noLocks] using TableStep.store hf hstage
      next => cases h

/-! ## The table follows the lists -/

/-- The list of a bucket after the accesses, and what the threads have loaded of it. -/
def listOf (trace : List (TableAccess τ)) (b : Bucket) : Register τ (Addr × Nat × Int) :=
  replay (accessesTo trace b)

/-- The chains of the table are the lists of its buckets, and the pointer of an
`insert` leads to the list its thread has loaded. -/
structure Follows (trace : List (TableAccess τ)) (s : State τ Empty) : Prop where
  intact : Intact (insertions trace) s
  distinct : ((insertions trace).map Inserted.entry).Nodup
  heads : ∀ b, Linked (nodeAt s.heap) (s.table b) (listOf trace b).content
  links : ∀ t f link, (s.thread t).frame = some f → s.link f = some link →
    Linked (nodeAt s.heap) link ((listOf trace (bucketOf f.key)).loaded t)

theorem follows_start : Follows [] (State.start calls) where
  intact := intact_start calls
  distinct := List.nodup_nil
  heads := fun _ => rfl
  links := by simp [State.start]

theorem content_subset (trace : List (TableAccess τ)) (b : Bucket) :
    (listOf trace b).content ⊆ cellsOf (insertions trace) b := by
  rw [listOf, (replay_eq _).1, ← pushed_accessesTo]
  exact (survivors_sublist none _).subset

theorem loaded_subset (trace : List (TableAccess τ)) (b : Bucket) (t : τ) :
    (listOf trace b).loaded t ⊆ cellsOf (insertions trace) b := by
  rw [listOf, (replay_eq _).2, ← pushed_accessesTo]
  exact (survivors_sublist (some t) _).subset

omit [DecidableEq τ] in
/-- A list of entries of the table stays where it is while they are not written. -/
theorem linked_frame {b : Bucket} {ptr : Option Addr} {cells : List (Addr × Nat × Int)}
    (hcells : Linked (nodeAt s.heap) ptr cells) (hsubset : cells ⊆ cellsOf history b)
    (hheap : ∀ x ∈ history, s'.heap x.entry = s.heap x.entry) :
    Linked (nodeAt s'.heap) ptr cells := by
  apply hcells.frame
  intro cell hcell
  obtain ⟨x, hx, hentry⟩ := exists_of_mem_cellsOf (hsubset hcell)
  simp only [nodeAt, ← hentry, hheap x hx]

theorem listOf_load (trace : List (TableAccess τ)) (t : τ) (b c : Bucket) :
    listOf (trace ++ [.load t b]) c =
      if b = c then (listOf trace c).access (.load t) else listOf trace c := by
  rw [listOf, accessesTo_append, accessesTo_load]
  split <;> rfl

theorem listOf_store (trace : List (TableAccess τ)) (x : Inserted τ) (c : Bucket) :
    listOf (trace ++ [.store x]) c =
      if bucketOf x.key = c then (listOf trace c).access (.store x.thread (x.entry, x.key, x.val))
      else listOf trace c := by
  rw [listOf, accessesTo_append, accessesTo_store]
  split <;> rfl

theorem TableStep.heads {accesses : List (TableAccess τ)} (h : TableStep s s' accesses)
    (hfollows : Follows trace s)
    (hkept : ∀ b, Linked (nodeAt s'.heap) (s.table b) (listOf trace b).content) (b : Bucket) :
    Linked (nodeAt s'.heap) (s'.table b) (listOf (trace ++ accesses) b).content := by
  cases h with
  | quiet htable hlinks =>
      rw [List.append_nil, htable]
      exact hkept b
  | load hf =>
      rw [listOf_load]
      split
      · exact hkept b
      · exact hkept b
  | @store t f hf hstage =>
      rw [listOf_store]
      by_cases hb : bucketOf f.key = b
      · subst hb
        obtain ⟨head, hentry, -⟩ : ∃ head,
            s.heap f.e = some ⟨some f.key, some f.val, some head⟩ ∧
              LeadsIn (insertions trace) s.heap (bucketOf f.key) head := by
          simpa [StaleRight, hstage] using hfollows.intact.entries t f hf
        -- the entry links to the head its thread has loaded
        have hlink := hfollows.links t f head hf (by simp [State.link, hstage, hentry])
        simpa [Register.access] using
          hlink.push (a := f.e) (x := (f.key, f.val)) (by simp [nodeAt, hentry])
      · simpa [hb, Ne.symm hb] using hkept b

theorem TableStep.links {accesses : List (TableAccess τ)} (h : TableStep s s' accesses)
    (hheads : ∀ b, Linked (nodeAt s'.heap) (s.table b) (listOf trace b).content)
    (hkept : ∀ t f link, (s.thread t).frame = some f → s.link f = some link →
      Linked (nodeAt s'.heap) link ((listOf trace (bucketOf f.key)).loaded t))
    {u : τ} {g : Frame} {link : Option Addr} (hg : (s'.thread u).frame = some g)
    (hlink : s'.link g = some link) :
    Linked (nodeAt s'.heap) link ((listOf (trace ++ accesses) (bucketOf g.key)).loaded u) := by
  cases h with
  | quiet htable hlinks =>
      obtain ⟨f, hf, hkey, hflink⟩ := hlinks u g link hg hlink
      rw [List.append_nil, ← hkey]
      exact hkept u f link hf hflink
  | @load t f hf =>
      rw [listOf_load]
      rw [goTo_frame] at hg
      split at hg
      next hut =>
        cases hg
        cases hlink
        simpa [hut, Register.access] using hheads (bucketOf f.key)
      next hut =>
        have hold := hkept u g link hg hlink
        split
        next => simpa [Register.access, hut] using hold
        next => exact hold
  | @store t f hf hstage =>
      rw [listOf_store]
      rw [setFrame_frame] at hg
      split at hg
      next => cases hg
      next =>
        have hold := hkept u g link hg hlink
        split
        next => exact hold
        next => exact hold

theorem Follows.step {a : Action τ} (h : Follows trace s)
    (hstep : s.step noLocks a = some (s', events)) : Follows (trace ++ s.access a) s' := by
  have hmove := step_racyMove hstep
  have hheap := hmove.heap_eq h.intact.separate
  obtain ⟨htable, hevents⟩ := step_tableStep h.intact.separate h.intact.unlocked hstep
  have hhistory : insertions (trace ++ s.access a) = insertions trace ++ events := by
    rw [insertions_append, hevents]
  have hheads : ∀ b, Linked (nodeAt s'.heap) (s.table b) (listOf trace b).content :=
    fun b => linked_frame (h.heads b) (content_subset trace b) hheap
  have hlinks : ∀ t f link, (s.thread t).frame = some f → s.link f = some link →
      Linked (nodeAt s'.heap) link ((listOf trace (bucketOf f.key)).loaded t) :=
    fun t f link hf hlink =>
      linked_frame (h.links t f link hf hlink) (loaded_subset trace _ t) hheap
  constructor
  · exact hhistory ▸ h.intact.step hmove
  · exact hhistory ▸ hmove.distinct h.intact.separate h.distinct
  · exact htable.heads h hheads
  · exact fun u g link hg hlink => htable.links hheads hlinks hg hlink

theorem follows_of_traced (h : Traced calls trace s) : Follows trace s := by
  refine h.invariant follows_start ?_
  intro trace s a s' accesses hfollows _ hstep
  obtain ⟨⟨t, events⟩, hplain, heq⟩ := Option.map_eq_some_iff.mp hstep
  cases heq
  exact hfollows.step hplain

/-- A run with its accesses is a run, with the stores as its history. -/
theorem Traced.reachable (h : Traced calls trace s) :
    Reachable noLocks calls (insertions trace) s := by
  induction h with
  | start => exact .start
  | @step trace s s' a accesses hprior hok hstep ih =>
      obtain ⟨⟨t, events⟩, hplain, heq⟩ := Option.map_eq_some_iff.mp hstep
      cases heq
      have hintact := (follows_of_traced hprior).intact
      rw [insertions_append, (step_tableStep hintact.separate hintact.unlocked hplain).2]
      exact .step ih hok hplain

/-- Every run has its accesses. -/
theorem exists_traced (h : Reachable noLocks calls history s) :
    ∃ trace, Traced calls trace s ∧ insertions trace = history := by
  induction h with
  | start => exact ⟨[], .start, rfl⟩
  | @step history s s' a events hprior hok hstep ih =>
      obtain ⟨trace, htraced, rfl⟩ := ih
      have hintact := (follows_of_traced htraced).intact
      refine ⟨trace ++ s.access a, ?_, ?_⟩
      · exact .step htraced hok (by simp only [State.tracedStep, hstep, Option.map_some])
      · rw [insertions_append, (step_tableStep hintact.separate hintact.unlocked hstep).2]

/-- The runs are the runs with accesses, the stores being the history. -/
theorem reachable_iff_traced : Reachable noLocks calls history s ↔
    ∃ trace, Traced calls trace s ∧ insertions trace = history := by
  constructor
  · exact exists_traced
  · rintro ⟨trace, htraced, rfl⟩
    exact htraced.reachable

theorem Follows.linked_survivors (h : Follows trace s) (b : Bucket) :
    Linked (nodeAt s.heap) (s.table b) (survivors none (accessesTo trace b)) := by
  rw [← (replay_eq _).1]
  exact h.heads b

/-- After the accesses of any run the table holds the entries that survive them, and
`retrieve` finds the first of these with the key. -/
theorem table_holds_survivors (calls : τ → List (Nat × Int)) :
    (∀ history s, Reachable noLocks calls history s ↔
      ∃ trace, Traced calls trace s ∧ insertions trace = history) ∧
    ∀ trace s, Traced calls trace s →
      (∀ b, Linked (nodeAt s.heap) (s.table b) (survivors none (accessesTo trace b))) ∧
        ∀ key fuel, (insertions trace).length ≤ fuel → s.retrieve fuel key =
          some (((survivors none (accessesTo trace (bucketOf key))).find?
            fun cell => cell.2.1 = key).map Prod.fst) := by
  refine ⟨fun _ _ => reachable_iff_traced, fun trace s htraced => ?_⟩
  have hfollows := follows_of_traced htraced
  refine ⟨hfollows.linked_survivors, ?_⟩
  intro key fuel hfuel
  apply retrieveLoop_of_linked (hfollows.linked_survivors (bucketOf key)) key
  calc (survivors none (accessesTo trace (bucketOf key))).length
      ≤ (pushed (accessesTo trace (bucketOf key))).length := (survivors_sublist none _).length_le
    _ = (cellsOf (insertions trace) (bucketOf key)).length := by rw [pushed_accessesTo]
    _ ≤ (insertions trace).length := length_cellsOf_le _ _
    _ ≤ fuel := hfuel

theorem racingSteps_isSome : (run (fun s => State.tracedStep s noLocks)
    (State.start racingCalls) racingSteps).isSome := by
  decide

/-- Both threads load the empty bucket, and the second store replaces the first. -/
theorem table_holds_survivors_racing : ∃ trace s, Traced racingCalls trace s ∧
    pushed (accessesTo trace (bucketOf 3)) = [(1, 8, 2), (0, 3, 1)] ∧
      survivors none (accessesTo trace (bucketOf 3)) = [(1, 8, 2)] ∧
        ∀ b, Linked (nodeAt s.heap) (s.table b) (survivors none (accessesTo trace b)) := by
  have htraced : Traced racingCalls _ _ :=
    Reach.of_isSome racingSteps (admitted_anyStep _ _) racingSteps_isSome
  have hholds := (table_holds_survivors racingCalls).2 _ _ htraced
  exact ⟨_, _, htraced, by decide, by decide, hholds.1⟩

omit [DecidableEq τ] in
/-- No cell was pushed twice. -/
theorem nodup_cellsOf (hdistinct : (history.map Inserted.entry).Nodup) (b : Bucket) :
    (cellsOf history b).Nodup := by
  rw [cellsOf, List.nodup_reverse]
  apply List.Nodup.of_map Prod.fst
  rw [List.map_map]
  exact (List.filter_sublist.map Inserted.entry).nodup hdistinct

/-- After the accesses of any run nothing is missing from the table exactly if in no
bucket two inserts overlap. -/
theorem nothing_lost_iff_exclusive (calls : τ → List (Nat × Int)) :
    (∀ history s, Reachable noLocks calls history s ↔
      ∃ trace, Traced calls trace s ∧ insertions trace = history) ∧
    ∀ trace s, Traced calls trace s →
      ((∀ x ∈ insertions trace, ∃ cells,
        Linked (nodeAt s.heap) (s.table (bucketOf x.key)) cells ∧
          (x.entry, x.key, x.val) ∈ cells) ↔ ∀ b, Exclusive (accessesTo trace b)) := by
  refine ⟨fun _ _ => reachable_iff_traced, fun trace s htraced => ?_⟩
  have hfollows := follows_of_traced htraced
  constructor
  · intro hall b
    rw [← survivors_eq_pushed_iff]
    have hsubset : pushed (accessesTo trace b) ⊆ survivors none (accessesTo trace b) := by
      rw [pushed_accessesTo]
      intro cell hcell
      simp only [cellsOf, List.mem_reverse, List.mem_map, List.mem_filter,
        decide_eq_true_eq] at hcell
      obtain ⟨x, ⟨hx, rfl⟩, rfl⟩ := hcell
      obtain ⟨cells, hcells, hmem⟩ := hall x hx
      rwa [hcells.unique (hfollows.linked_survivors _)] at hmem
    have hnodup : (pushed (accessesTo trace b)).Nodup := by
      rw [pushed_accessesTo]
      exact nodup_cellsOf hfollows.distinct b
    exact (survivors_sublist none _).eq_of_length_le (hnodup.subperm hsubset).length_le
  · intro hexclusive x hx
    refine ⟨_, hfollows.linked_survivors (bucketOf x.key), ?_⟩
    rw [(survivors_eq_pushed_iff _).mpr (hexclusive _), pushed_accessesTo]
    exact mem_cellsOf hx

theorem nothing_lost_iff_exclusive_racing : ∃ trace s, Traced racingCalls trace s ∧
    ¬ ∀ x ∈ insertions trace, ∃ cells,
      Linked (nodeAt s.heap) (s.table (bucketOf x.key)) cells ∧
        (x.entry, x.key, x.val) ∈ cells := by
  have htraced : Traced racingCalls _ _ :=
    Reach.of_isSome racingSteps (admitted_anyStep _ _) racingSteps_isSome
  refine ⟨_, _, htraced, ?_⟩
  rw [(nothing_lost_iff_exclusive racingCalls).2 _ _ htraced]
  decide

end OsCourse.HashTable
