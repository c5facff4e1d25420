import OsCourse.HashTable.Insert
import OsCourse.Lib.LinkedList

/-! # Inserting under locks

With a lock for every bucket an `insert` has the bucket for itself from the
load of `table[i]` to the store into it. Entries not yet in the table are seen
by one thread only. Together this keeps the chains equal to what the history
of stores says, newest entry first.
-/

namespace OsCourse.HashTable

open LinkedList Transition

variable {τ Lock : Type*} [DecidableEq τ] [DecidableEq Lock]

section Updates

variable {τ Lock : Type*} (s : State τ Lock)

@[simp] theorem setEntry_heap (a c : Addr) (entry : BucketEntry) :
    (s.setEntry a entry).heap c = if c = a then some entry else s.heap c :=
  Function.update_apply ..

@[simp] theorem setEntry_table (a : Addr) (entry : BucketEntry) :
    (s.setEntry a entry).table = s.table := rfl

@[simp] theorem setEntry_holder (a : Addr) (entry : BucketEntry) :
    (s.setEntry a entry).holder = s.holder := rfl

@[simp] theorem setTable_table (b c : Bucket) (ptr : Option Addr) :
    (s.setTable b ptr).table c = if c = b then ptr else s.table c :=
  Function.update_apply ..

@[simp] theorem setTable_heap (b : Bucket) (ptr : Option Addr) :
    (s.setTable b ptr).heap = s.heap := rfl

@[simp] theorem setTable_thread (b : Bucket) (ptr : Option Addr) :
    (s.setTable b ptr).thread = s.thread := rfl

section Threads

variable [DecidableEq τ]

@[simp] theorem setFrame_frame (t u : τ) (frame : Option Frame) :
    ((s.setFrame t frame).thread u).frame = if u = t then frame else (s.thread u).frame := by
  unfold State.setFrame
  by_cases h : u = t
  · simp [h]
  · simp [h]

theorem goTo_frame (t : τ) (f : Frame) (stage : Stage) (u : τ) :
    ((s.goTo t f stage).thread u).frame =
      if u = t then some { f with stage := stage } else (s.thread u).frame :=
  setFrame_frame s t u _

@[simp] theorem setFrame_calls (t u : τ) (frame : Option Frame) :
    ((s.setFrame t frame).thread u).calls = (s.thread u).calls := by
  unfold State.setFrame
  by_cases h : u = t
  · simp [h]
  · simp [h]

@[simp] theorem setFrame_heap (t : τ) (frame : Option Frame) :
    (s.setFrame t frame).heap = s.heap := rfl

@[simp] theorem setFrame_table (t : τ) (frame : Option Frame) :
    (s.setFrame t frame).table = s.table := rfl

@[simp] theorem setFrame_holder (t : τ) (frame : Option Frame) :
    (s.setFrame t frame).holder = s.holder := rfl

end Threads

section Locks

variable [DecidableEq Lock]

@[simp] theorem setHolder_holder (l m : Lock) (t : Option τ) :
    (s.setHolder l t).holder m = if m = l then t else s.holder m :=
  Function.update_apply ..

@[simp] theorem setHolder_heap (l : Lock) (t : Option τ) :
    (s.setHolder l t).heap = s.heap := rfl

@[simp] theorem setHolder_thread (l : Lock) (t : Option τ) :
    (s.setHolder l t).thread = s.thread := rfl

end Locks

end Updates

/-! ## Steps of a program that locks every bucket -/

/-- What a step does, with the guards under which it is taken. -/
inductive Move (lockOf : Bucket → Lock) (s : State τ Lock) :
    State τ Lock → List (Inserted τ) → Prop
  | malloc {t : τ} {e : Addr} {key : Nat} {val : Int} {calls : List (Nat × Int)}
      (ht : s.thread t = ⟨none, (key, val) :: calls⟩) (he : s.heap e = none) :
      Move lockOf s { s.setEntry e ⟨none, none, none⟩ with
        thread := Function.update s.thread t ⟨some ⟨key, val, e, .lock⟩, calls⟩ } []
  | lock {t : τ} {f : Frame} (hf : (s.thread t).frame = some f) (hstage : f.stage = .lock)
      (hfree : s.holder (lockOf (bucketOf f.key)) = none) :
      Move lockOf s ((s.setHolder (lockOf (bucketOf f.key)) (some t)).goTo t f .load) []
  | load {t : τ} {f : Frame} (hf : (s.thread t).frame = some f) (hstage : f.stage = .load) :
      Move lockOf s (s.goTo t f (.next (s.table (bucketOf f.key)))) []
  | next {t : τ} {f : Frame} {head : Option Addr} {e : BucketEntry}
      (hf : (s.thread t).frame = some f) (hstage : f.stage = .next head)
      (he : s.heap f.e = some e) :
      Move lockOf s ((s.setEntry f.e { e with next := some head }).goTo t f .key) []
  | key {t : τ} {f : Frame} {e : BucketEntry} (hf : (s.thread t).frame = some f)
      (hstage : f.stage = .key) (he : s.heap f.e = some e) :
      Move lockOf s ((s.setEntry f.e { e with key := some f.key }).goTo t f .val) []
  | val {t : τ} {f : Frame} {e : BucketEntry} (hf : (s.thread t).frame = some f)
      (hstage : f.stage = .val) (he : s.heap f.e = some e) :
      Move lockOf s ((s.setEntry f.e { e with val := some f.val }).goTo t f .store) []
  | store {t : τ} {f : Frame} (hf : (s.thread t).frame = some f) (hstage : f.stage = .store) :
      Move lockOf s ((s.setTable (bucketOf f.key) (some f.e)).goTo t f .unlock)
        [⟨t, f.key, f.val, f.e⟩]
  | unlock {t : τ} {f : Frame} (hf : (s.thread t).frame = some f) (hstage : f.stage = .unlock) :
      Move lockOf s ((s.setHolder (lockOf (bucketOf f.key)) none).setFrame t none) []

variable {lockOf : Bucket → Lock} {s s' : State τ Lock} {history events : List (Inserted τ)}

theorem step_move {a : Action τ} (h : s.step (fun b => some (lockOf b)) a = some (s', events)) :
    Move lockOf s s' events := by
  cases a with
  | malloc t e =>
      simp only [State.step] at h
      split at h
      next key val calls ht =>
        split at h
        next he =>
          cases h
          exact .malloc ht he
        next => cases h
      next => cases h
  | run t =>
      obtain ⟨f, hf, h⟩ := Option.bind_eq_some_iff.mp h
      simp only [State.advance] at h
      split at h
      next hstage =>
        simp only [Option.bind_some] at h
        split at h
        next hfree =>
          cases h
          exact .lock hf hstage hfree
        next => cases h
      next hstage =>
        cases h
        exact .load hf hstage
      next head hstage =>
        obtain ⟨e, he, h⟩ := Option.map_eq_some_iff.mp h
        cases h
        exact .next hf hstage he
      next hstage =>
        obtain ⟨e, he, h⟩ := Option.map_eq_some_iff.mp h
        cases h
        exact .key hf hstage he
      next hstage =>
        obtain ⟨e, he, h⟩ := Option.map_eq_some_iff.mp h
        cases h
        exact .val hf hstage he
      next hstage =>
        cases h
        exact .store hf hstage
      next hstage =>
        cases h
        exact .unlock hf hstage

/-- The steps a stage is before the end of its `insert`. -/
def Stage.left : Stage → Nat
  | .lock => 7
  | .load => 6
  | .next _ => 5
  | .key => 4
  | .val => 3
  | .store => 2
  | .unlock => 1

/-- The steps a thread has still to do for its calls. -/
def Thread.left (th : Thread) : Nat :=
  8 * th.calls.length + (th.frame.elim 0 fun f => f.stage.left)

omit [DecidableEq Lock] in
theorem left_setFrame_lt {t : τ} {f : Frame} {frame : Option Frame}
    (hf : (s.thread t).frame = some f)
    (hlt : (frame.elim 0 fun g => g.stage.left) < f.stage.left) :
    ((s.setFrame t frame).thread t).left < (s.thread t).left := by
  simp only [Thread.left, setFrame_calls, setFrame_frame, if_true, hf, Option.elim_some]
  omega

/-- A step of `insert` brings one thread nearer to the end of its calls. -/
theorem Move.left_lt (h : Move lockOf s s' events) :
    ∃ t, (s'.thread t).left < (s.thread t).left ∧ ∀ u, u ≠ t → s'.thread u = s.thread u := by
  cases h with
  | @malloc t e key val calls ht he =>
      refine ⟨t, ?_, fun u hu => Function.update_of_ne hu ..⟩
      simp only [Function.update_self, ht, Thread.left, Stage.left, List.length_cons,
        Option.elim_some, Option.elim_none]
      omega
  | @lock t f hf hstage hfree =>
      refine ⟨t, left_setFrame_lt hf ?_, fun u hu => Function.update_of_ne hu ..⟩
      simp [hstage, Stage.left]
  | @load t f hf hstage =>
      refine ⟨t, left_setFrame_lt hf ?_, fun u hu => Function.update_of_ne hu ..⟩
      simp [hstage, Stage.left]
  | @next t f head e hf hstage he =>
      refine ⟨t, left_setFrame_lt hf ?_, fun u hu => Function.update_of_ne hu ..⟩
      simp [hstage, Stage.left]
  | @key t f e hf hstage he =>
      refine ⟨t, left_setFrame_lt hf ?_, fun u hu => Function.update_of_ne hu ..⟩
      simp [hstage, Stage.left]
  | @val t f e hf hstage he =>
      refine ⟨t, left_setFrame_lt hf ?_, fun u hu => Function.update_of_ne hu ..⟩
      simp [hstage, Stage.left]
  | @store t f hf hstage =>
      refine ⟨t, left_setFrame_lt hf ?_, fun u hu => Function.update_of_ne hu ..⟩
      simp [hstage, Stage.left]
  | @unlock t f hf hstage =>
      refine ⟨t, left_setFrame_lt hf ?_, fun u hu => Function.update_of_ne hu ..⟩
      simp [hstage, Stage.left]

/-! ## Mutual exclusion -/

/-- A lock is held by exactly the thread that is between its acquire and its
release. -/
structure LocksHeld (lockOf : Bucket → Lock) (s : State τ Lock) : Prop where
  held : ∀ t f, (s.thread t).frame = some f → f.stage ≠ .lock →
    s.holder (lockOf (bucketOf f.key)) = some t
  owner : ∀ l t, s.holder l = some t →
    ∃ f, (s.thread t).frame = some f ∧ f.stage ≠ .lock ∧ lockOf (bucketOf f.key) = l

omit [DecidableEq Lock] in
/-- A thread goes on inside its critical section. -/
theorem LocksHeld.goOn (hlocks : LocksHeld lockOf s) {t : τ} {f : Frame} {stage : Stage}
    (hf : (s.thread t).frame = some f) (hold : f.stage ≠ .lock) (hnew : stage ≠ .lock)
    (hholder : s'.holder = s.holder)
    (hframe : ∀ u, (s'.thread u).frame =
      if u = t then some { f with stage := stage } else (s.thread u).frame) :
    LocksHeld lockOf s' := by
  obtain ⟨hheld, howner⟩ := hlocks
  constructor <;> simp only [hholder, hframe] <;> grind

theorem Move.locksHeld (h : Move lockOf s s' events) (hlocks : LocksHeld lockOf s) :
    LocksHeld lockOf s' := by
  cases h with
  | malloc ht he =>
      obtain ⟨hheld, howner⟩ := hlocks
      constructor <;> simp only [Function.update_apply, setEntry_holder] <;> grind
  | lock hf hstage hfree =>
      obtain ⟨hheld, howner⟩ := hlocks
      constructor <;> simp only [State.goTo, setFrame_frame, setFrame_holder, setHolder_holder,
        setHolder_thread] <;> grind
  | load hf hstage => exact hlocks.goOn hf (by simp [hstage]) (by simp) rfl (goTo_frame _ _ _ _)
  | next hf hstage he =>
      exact hlocks.goOn hf (by simp [hstage]) (by simp) rfl (goTo_frame _ _ _ _)
  | key hf hstage he =>
      exact hlocks.goOn hf (by simp [hstage]) (by simp) rfl (goTo_frame _ _ _ _)
  | val hf hstage he =>
      exact hlocks.goOn hf (by simp [hstage]) (by simp) rfl (goTo_frame _ _ _ _)
  | store hf hstage =>
      exact hlocks.goOn hf (by simp [hstage]) (by simp) rfl (goTo_frame _ _ _ _)
  | unlock hf hstage =>
      obtain ⟨hheld, howner⟩ := hlocks
      constructor <;> simp only [setFrame_frame, setFrame_holder, setHolder_holder,
        setHolder_thread] <;> grind

omit [DecidableEq τ] [DecidableEq Lock] in
/-- Two threads are not inside the same bucket. -/
theorem LocksHeld.exclusive (hlocks : LocksHeld lockOf s) {t u : τ} {f g : Frame}
    (hf : (s.thread t).frame = some f) (hg : (s.thread u).frame = some g)
    (hfs : f.stage ≠ .lock) (hgs : g.stage ≠ .lock) (hbucket : bucketOf f.key = bucketOf g.key) :
    t = u := by
  have hheld := hlocks.held t f hf hfs
  rw [hbucket, hlocks.held u g hg hgs] at hheld
  exact (Option.some.inj hheld).symm

/-! ## Entries outside the table -/

/-- The entry of an `insert` is allocated, and until it is stored in the table no
other thread and no chain has it. -/
structure Separate (history : List (Inserted τ)) (s : State τ Lock) : Prop where
  allocated : ∀ t f, (s.thread t).frame = some f → s.heap f.e ≠ none
  published : ∀ x ∈ history, s.heap x.entry ≠ none
  hidden : ∀ t f, (s.thread t).frame = some f → f.stage ≠ .unlock →
    ∀ x ∈ history, x.entry ≠ f.e
  apart : ∀ t u f g, (s.thread t).frame = some f → (s.thread u).frame = some g →
    f.stage ≠ .unlock → g.stage ≠ .unlock → f.e = g.e → t = u

omit [DecidableEq Lock] in
/-- A thread goes on with its entry still hidden. -/
theorem Separate.goOn (hsep : Separate history s) {t : τ} {f : Frame} {stage : Stage}
    (hf : (s.thread t).frame = some f) (hold : f.stage ≠ .unlock)
    (hheap : ∀ a, s.heap a ≠ none → s'.heap a ≠ none)
    (hframe : ∀ u, (s'.thread u).frame =
      if u = t then some { f with stage := stage } else (s.thread u).frame) :
    Separate history s' := by
  obtain ⟨hallocated, hpublished, hhidden, hapart⟩ := hsep
  refine ⟨?_, fun x hx => hheap _ (hpublished x hx), ?_, ?_⟩ <;> simp only [hframe] <;> grind

theorem Move.separate (h : Move lockOf s s' events) (hsep : Separate history s) :
    Separate (history ++ events) s' := by
  have hwrite : ∀ e entry a, s.heap a ≠ none → (s.setEntry e entry).heap a ≠ none := by
    intro e entry a ha
    rw [setEntry_heap]
    split
    next => exact Option.some_ne_none _
    next => exact ha
  cases h with
  | malloc ht he =>
      obtain ⟨hallocated, hpublished, hhidden, hapart⟩ := hsep
      rw [List.append_nil]
      constructor <;> simp only [Function.update_apply, setEntry_heap] <;> grind
  | lock hf hstage hfree =>
      rw [List.append_nil]
      exact hsep.goOn hf (by simp [hstage]) (fun _ ha => ha) (goTo_frame _ _ _ _)
  | load hf hstage =>
      rw [List.append_nil]
      exact hsep.goOn hf (by simp [hstage]) (fun _ ha => ha) (goTo_frame _ _ _ _)
  | next hf hstage he =>
      rw [List.append_nil]
      exact hsep.goOn hf (by simp [hstage]) (hwrite _ _) (goTo_frame _ _ _ _)
  | key hf hstage he =>
      rw [List.append_nil]
      exact hsep.goOn hf (by simp [hstage]) (hwrite _ _) (goTo_frame _ _ _ _)
  | val hf hstage he =>
      rw [List.append_nil]
      exact hsep.goOn hf (by simp [hstage]) (hwrite _ _) (goTo_frame _ _ _ _)
  | store hf hstage =>
      obtain ⟨hallocated, hpublished, hhidden, hapart⟩ := hsep
      constructor <;> simp only [State.goTo, setFrame_frame, setFrame_heap, setTable_thread,
        setTable_heap, List.mem_append, List.mem_singleton] <;> grind
  | unlock hf hstage =>
      obtain ⟨hallocated, hpublished, hhidden, hapart⟩ := hsep
      rw [List.append_nil]
      constructor <;> simp only [setFrame_frame, setFrame_heap, setHolder_thread,
        setHolder_heap] <;> grind

/-! ## What an entry holds at each stage -/

/-- What has been written of the entry of an `insert`, and that its link is to
the present head of the bucket. -/
def EntryRight (s : State τ Lock) (f : Frame) : Prop :=
  match f.stage with
  | .lock | .load | .unlock => True
  | .next head => head = s.table (bucketOf f.key)
  | .key => ∃ key val, s.heap f.e = some ⟨key, val, some (s.table (bucketOf f.key))⟩
  | .val => ∃ val, s.heap f.e = some ⟨some f.key, val, some (s.table (bucketOf f.key))⟩
  | .store => s.heap f.e = some ⟨some f.key, some f.val, some (s.table (bucketOf f.key))⟩

omit [DecidableEq τ] [DecidableEq Lock] in
theorem EntryRight.congr {f : Frame} (h : EntryRight s f) (hheap : s'.heap f.e = s.heap f.e)
    (htable : s'.table (bucketOf f.key) = s.table (bucketOf f.key)) : EntryRight s' f := by
  unfold EntryRight at h ⊢
  rw [hheap, htable]
  exact h

omit [DecidableEq τ] [DecidableEq Lock] in
/-- A write to an entry outside the table is seen by its own thread only. -/
theorem EntryRight.setEntry (hsep : Separate history s) {t u : τ} {f g : Frame} (hut : u ≠ t)
    (hf : (s.thread t).frame = some f) (hg : (s.thread u).frame = some g)
    (hfs : f.stage ≠ .unlock) (h : EntryRight s g) (entry : BucketEntry) :
    EntryRight (s.setEntry f.e entry) g := by
  by_cases hgs : g.stage = .unlock
  · simp [EntryRight, hgs]
  · refine h.congr ?_ rfl
    rw [setEntry_heap, if_neg]
    intro heq
    exact hut (hsep.apart u t g f hg hf hgs hfs heq)

theorem Move.entryRight (h : Move lockOf s s' events) (hlocks : LocksHeld lockOf s)
    (hsep : Separate history s)
    (hentries : ∀ t f, (s.thread t).frame = some f → EntryRight s f) {u : τ} {g : Frame}
    (hg : (s'.thread u).frame = some g) : EntryRight s' g := by
  cases h with
  | @malloc t e key val calls ht he =>
      simp only [Function.update_apply] at hg
      split at hg
      next =>
        cases hg
        trivial
      next =>
        refine (hentries u g hg).congr ?_ rfl
        have hge : g.e ≠ e := fun heq => hsep.allocated u g hg (heq ▸ he)
        exact (setEntry_heap s e g.e _).trans (if_neg hge)
  | @lock t f hf hstage hfree =>
      rw [goTo_frame] at hg
      split at hg
      next =>
        cases hg
        trivial
      next => exact (hentries u g hg).congr rfl rfl
  | @load t f hf hstage =>
      rw [goTo_frame] at hg
      split at hg
      next =>
        cases hg
        rfl
      next => exact (hentries u g hg).congr rfl rfl
  | @next t f head e hf hstage he =>
      rw [goTo_frame] at hg
      split at hg
      next =>
        cases hg
        have hhead : head = s.table (bucketOf f.key) := by
          simpa [EntryRight, hstage] using hentries t f hf
        exact ⟨e.key, e.val, by simp [State.goTo, hhead]⟩
      next hut =>
        exact EntryRight.setEntry hsep hut hf hg (by simp [hstage]) (hentries u g hg) _
  | @key t f e hf hstage he =>
      rw [goTo_frame] at hg
      split at hg
      next =>
        cases hg
        obtain ⟨key, val, hentry⟩ : ∃ key val,
            s.heap f.e = some ⟨key, val, some (s.table (bucketOf f.key))⟩ := by
          simpa [EntryRight, hstage] using hentries t f hf
        cases he.symm.trans hentry
        exact ⟨val, by simp [State.goTo]⟩
      next hut =>
        exact EntryRight.setEntry hsep hut hf hg (by simp [hstage]) (hentries u g hg) _
  | @val t f e hf hstage he =>
      rw [goTo_frame] at hg
      split at hg
      next =>
        cases hg
        obtain ⟨val, hentry⟩ : ∃ val,
            s.heap f.e = some ⟨some f.key, val, some (s.table (bucketOf f.key))⟩ := by
          simpa [EntryRight, hstage] using hentries t f hf
        cases he.symm.trans hentry
        simp [EntryRight, State.goTo]
      next hut =>
        exact EntryRight.setEntry hsep hut hf hg (by simp [hstage]) (hentries u g hg) _
  | @store t f hf hstage =>
      rw [goTo_frame] at hg
      split at hg
      next =>
        cases hg
        trivial
      next hut =>
        -- another thread inside the bucket would hold the same lock
        by_cases hgs : g.stage = .lock
        · simp [EntryRight, hgs]
        · refine (hentries u g hg).congr rfl ?_
          have hbucket : bucketOf g.key ≠ bucketOf f.key := fun heq =>
            hut (hlocks.exclusive hg hf hgs (by simp [hstage]) heq)
          exact (setTable_table s _ _ _).trans (if_neg hbucket)
  | @unlock t f hf hstage =>
      rw [setFrame_frame] at hg
      split at hg
      next => cases hg
      next => exact (hentries u g hg).congr rfl rfl

/-! ## Chains and the history -/

/-- A node as `retrieve` sees it, once all of it has been written. -/
def nodeAt (heap : Addr → Option BucketEntry) (a : Addr) : Option ((Nat × Int) × Option Addr) :=
  match heap a with
  | some ⟨some key, some val, some next⟩ => some ((key, val), next)
  | _ => none

/-- The cells of a bucket after a history of stores, newest first. -/
def cellsOf (history : List (Inserted τ)) (b : Bucket) : List (Addr × Nat × Int) :=
  ((history.filter fun x => bucketOf x.key = b).map fun x => (x.entry, x.key, x.val)).reverse

/-- The thread of an `insert` and its arguments. -/
def Inserted.call (x : Inserted τ) : τ × Nat × Int := (x.thread, x.key, x.val)

/-- The calls of one thread in an order of calls. -/
def callsOf (order : List (τ × Nat × Int)) (t : τ) : List (Nat × Int) :=
  (order.filter fun x => x.1 = t).map Prod.snd

/-- The calls of a thread that have not reached the table yet. -/
def Thread.pending (th : Thread) : List (Nat × Int) :=
  match th.frame with
  | some f => if f.stage = .unlock then th.calls else (f.key, f.val) :: th.calls
  | none => th.calls

omit [DecidableEq τ] [DecidableEq Lock] in
theorem nodeAt_setEntry_of_ne {a c : Addr} (h : c ≠ a) (entry : BucketEntry) :
    nodeAt (s.setEntry a entry).heap c = nodeAt s.heap c := by
  simp [nodeAt, h]

omit [DecidableEq τ] in
theorem exists_of_mem_cellsOf {b : Bucket} {cell : Addr × Nat × Int}
    (h : cell ∈ cellsOf history b) : ∃ x ∈ history, x.entry = cell.1 := by
  simp only [cellsOf, List.mem_reverse, List.mem_map, List.mem_filter] at h
  obtain ⟨x, ⟨hx, -⟩, rfl⟩ := h
  exact ⟨x, hx, rfl⟩

omit [DecidableEq τ] [DecidableEq Lock] in
/-- A write to an entry outside the table leaves the chains as they are. -/
theorem chains_setEntry (hchains : ∀ b, Linked (nodeAt s.heap) (s.table b) (cellsOf history b))
    {a : Addr} (ha : ∀ x ∈ history, x.entry ≠ a) (entry : BucketEntry) (b : Bucket) :
    Linked (nodeAt (s.setEntry a entry).heap) (s.table b) (cellsOf history b) := by
  apply (hchains b).frame
  intro cell hcell
  obtain ⟨x, hx, heq⟩ := exists_of_mem_cellsOf hcell
  exact nodeAt_setEntry_of_ne (heq ▸ ha x hx) entry

theorem Move.chains (h : Move lockOf s s' events) (hsep : Separate history s)
    (hentries : ∀ t f, (s.thread t).frame = some f → EntryRight s f)
    (hchains : ∀ b, Linked (nodeAt s.heap) (s.table b) (cellsOf history b)) (b : Bucket) :
    Linked (nodeAt s'.heap) (s'.table b) (cellsOf (history ++ events) b) := by
  cases h with
  | malloc ht he =>
      rw [List.append_nil]
      apply chains_setEntry hchains
      intro x hx heq
      exact hsep.published x hx (heq ▸ he)
  | lock hf hstage hfree =>
      rw [List.append_nil]
      exact hchains b
  | load hf hstage =>
      rw [List.append_nil]
      exact hchains b
  | next hf hstage he =>
      rw [List.append_nil]
      exact chains_setEntry hchains (hsep.hidden _ _ hf (by simp [hstage])) _ b
  | key hf hstage he =>
      rw [List.append_nil]
      exact chains_setEntry hchains (hsep.hidden _ _ hf (by simp [hstage])) _ b
  | val hf hstage he =>
      rw [List.append_nil]
      exact chains_setEntry hchains (hsep.hidden _ _ hf (by simp [hstage])) _ b
  | @store t f hf hstage =>
      have hentry :
          s.heap f.e = some ⟨some f.key, some f.val, some (s.table (bucketOf f.key))⟩ := by
        simpa [EntryRight, hstage] using hentries t f hf
      by_cases hb : bucketOf f.key = b
      · subst hb
        -- the entry links to the old head, so the new chain is the old one behind it
        have hpush := (hchains (bucketOf f.key)).push (a := f.e) (x := (f.key, f.val))
          (by simp [nodeAt, hentry])
        simpa [State.goTo, cellsOf] using hpush
      · simpa [State.goTo, cellsOf, hb, Ne.symm hb] using hchains b
  | unlock hf hstage =>
      rw [List.append_nil]
      exact hchains b

omit [DecidableEq Lock] in
/-- A thread goes on before its store. -/
theorem pending_goTo {t : τ} {f : Frame} {stage : Stage} (hf : (s.thread t).frame = some f)
    (hold : f.stage ≠ .unlock) (hnew : stage ≠ .unlock) (u : τ) :
    ((s.goTo t f stage).thread u).pending = (s.thread u).pending := by
  by_cases hut : u = t
  · subst hut
    simp [State.goTo, Thread.pending, hf, hold, hnew]
  · simp [State.goTo, Thread.pending, hut]

theorem Move.order (h : Move lockOf s s' events) (u : τ) :
    callsOf ((history ++ events).map Inserted.call) u ++ (s'.thread u).pending =
      callsOf (history.map Inserted.call) u ++ (s.thread u).pending := by
  cases h with
  | @malloc t e key val calls ht he =>
      rw [List.append_nil]
      by_cases hut : u = t
      · simp [Thread.pending, hut, ht]
      · simp [hut]
  | @lock t f hf hstage hfree =>
      rw [List.append_nil]
      exact congrArg _ (pending_goTo hf (by simp [hstage]) (by simp) u)
  | @load t f hf hstage =>
      rw [List.append_nil]
      exact congrArg _ (pending_goTo hf (by simp [hstage]) (by simp) u)
  | @next t f head e hf hstage he =>
      rw [List.append_nil]
      exact congrArg _ (pending_goTo hf (by simp [hstage]) (by simp) u)
  | @key t f e hf hstage he =>
      rw [List.append_nil]
      exact congrArg _ (pending_goTo hf (by simp [hstage]) (by simp) u)
  | @val t f e hf hstage he =>
      rw [List.append_nil]
      exact congrArg _ (pending_goTo hf (by simp [hstage]) (by simp) u)
  | @store t f hf hstage =>
      by_cases hut : u = t
      · subst hut
        simp [State.goTo, Thread.pending, callsOf, Inserted.call, hf, hstage]
      · simp [State.goTo, Thread.pending, callsOf, Inserted.call, hut, Ne.symm hut]
  | @unlock t f hf hstage =>
      rw [List.append_nil]
      by_cases hut : u = t
      · subst hut
        simp [Thread.pending, hf, hstage]
      · simp [Thread.pending, hut]

/-! ## Whole runs -/

/-- What holds in every state of every run, the history being that of the
stores into the table. -/
structure Sound (lockOf : Bucket → Lock) (calls : τ → List (Nat × Int))
    (history : List (Inserted τ)) (s : State τ Lock) : Prop where
  locks : LocksHeld lockOf s
  separate : Separate history s
  entries : ∀ t f, (s.thread t).frame = some f → EntryRight s f
  chains : ∀ b, Linked (nodeAt s.heap) (s.table b) (cellsOf history b)
  order : ∀ t, callsOf (history.map Inserted.call) t ++ (s.thread t).pending = calls t

variable {calls : τ → List (Nat × Int)}

omit [DecidableEq Lock] in
theorem sound_start : Sound lockOf calls [] (State.start calls) where
  locks := ⟨by simp [State.start], by simp [State.start]⟩
  separate := ⟨by simp [State.start], by simp, by simp, by simp [State.start]⟩
  entries := by simp [State.start]
  chains := fun _ => rfl
  order := fun _ => rfl

theorem Sound.step (hsound : Sound lockOf calls history s) (h : Move lockOf s s' events) :
    Sound lockOf calls (history ++ events) s' where
  locks := h.locksHeld hsound.locks
  separate := h.separate hsound.separate
  entries := fun _ _ hg => h.entryRight hsound.locks hsound.separate hsound.entries hg
  chains := h.chains hsound.separate hsound.entries hsound.chains
  order := fun u => (h.order u).trans (hsound.order u)

theorem sound_of_reach (h : Reach (fun s => State.step s fun b => some (lockOf b)) anyStep
    (State.start calls) history s) : Sound lockOf calls history s :=
  h.invariant sound_start fun _ _ _ _ _ hinv _ hstep => hinv.step (step_move hstep)

end OsCourse.HashTable
