import Mathlib.Data.List.Nodup
import Mathlib.Data.List.Perm.Subperm
import OsCourse.HashTable.Linearization

/-! # Inserting without locks

`parallel_hashtable.c` takes no locks: between the load of `table[i]` and the
store into it other threads may store into the same bucket, and their entries
are lost. But a pointer that was once the head of a bucket still leads to a
list of entries of this bucket, and entries in the table are not written any
more, so what is left is always a proper chain.
-/

namespace OsCourse.HashTable

open LinkedList Transition

variable {τ : Type*} [DecidableEq τ]

/-- `parallel_hashtable.c`: no locks. -/
def noLocks : Bucket → Option Empty := fun _ => none

/-- What a step does when no bucket has a lock. -/
inductive RacyMove (s : State τ Empty) : State τ Empty → List (Inserted τ) → Prop
  | malloc {t : τ} {e : Addr} {key : Nat} {val : Int} {calls : List (Nat × Int)}
      (ht : s.thread t = ⟨none, (key, val) :: calls⟩) (he : s.heap e = none) :
      RacyMove s { s.setEntry e ⟨none, none, none⟩ with
        thread := Function.update s.thread t ⟨some ⟨key, val, e, .load⟩, calls⟩ } []
  | load {t : τ} {f : Frame} (hf : (s.thread t).frame = some f) (hstage : f.stage = .load) :
      RacyMove s (s.goTo t f (.next (s.table (bucketOf f.key)))) []
  | next {t : τ} {f : Frame} {head : Option Addr} {e : BucketEntry}
      (hf : (s.thread t).frame = some f) (hstage : f.stage = .next head)
      (he : s.heap f.e = some e) :
      RacyMove s ((s.setEntry f.e { e with next := some head }).goTo t f .key) []
  | key {t : τ} {f : Frame} {e : BucketEntry} (hf : (s.thread t).frame = some f)
      (hstage : f.stage = .key) (he : s.heap f.e = some e) :
      RacyMove s ((s.setEntry f.e { e with key := some f.key }).goTo t f .val) []
  | val {t : τ} {f : Frame} {e : BucketEntry} (hf : (s.thread t).frame = some f)
      (hstage : f.stage = .val) (he : s.heap f.e = some e) :
      RacyMove s ((s.setEntry f.e { e with val := some f.val }).goTo t f .store) []
  | store {t : τ} {f : Frame} (hf : (s.thread t).frame = some f) (hstage : f.stage = .store) :
      RacyMove s ((s.setTable (bucketOf f.key) (some f.e)).setFrame t none)
        [⟨t, f.key, f.val, f.e⟩]

variable {s s' : State τ Empty} {history events : List (Inserted τ)}

theorem step_racyMove {a : Action τ} (h : s.step noLocks a = some (s', events)) :
    RacyMove s s' events := by
  cases a with
  | malloc t e =>
      simp only [State.step] at h
      split at h
      next key val calls ht =>
        split at h
        next he =>
          cases h
          exact .malloc ht he
        next => cases h
      next => cases h
  | run t =>
      obtain ⟨f, hf, h⟩ := Option.bind_eq_some_iff.mp h
      simp only [State.advance] at h
      split at h
      next => cases h
      next hstage =>
        cases h
        exact .load hf hstage
      next head hstage =>
        obtain ⟨e, he, h⟩ := Option.map_eq_some_iff.mp h
        cases h
        exact .next hf hstage he
      next hstage =>
        obtain ⟨e, he, h⟩ := Option.map_eq_some_iff.mp h
        cases h
        exact .key hf hstage he
      next hstage =>
        obtain ⟨e, he, h⟩ := Option.map_eq_some_iff.mp h
        cases h
        exact .val hf hstage he
      next hstage =>
        cases h
        exact .store hf hstage
      next => cases h

/-! ## Entries outside the table -/

theorem RacyMove.separate (h : RacyMove s s' events) (hsep : Separate history s) :
    Separate (history ++ events) s' := by
  have hwrite : ∀ e entry a, s.heap a ≠ none → (s.setEntry e entry).heap a ≠ none := by
    intro e entry a ha
    rw [setEntry_heap]
    split
    next => exact Option.some_ne_none _
    next => exact ha
  cases h with
  | malloc ht he =>
      obtain ⟨hallocated, hpublished, hhidden, hapart⟩ := hsep
      rw [List.append_nil]
      constructor <;> simp only [Function.update_apply, setEntry_heap] <;> grind
  | load hf hstage =>
      rw [List.append_nil]
      exact hsep.goOn hf (by simp [hstage]) (fun _ ha => ha) (goTo_frame _ _ _ _)
  | next hf hstage he =>
      rw [List.append_nil]
      exact hsep.goOn hf (by simp [hstage]) (hwrite _ _) (goTo_frame _ _ _ _)
  | key hf hstage he =>
      rw [List.append_nil]
      exact hsep.goOn hf (by simp [hstage]) (hwrite _ _) (goTo_frame _ _ _ _)
  | val hf hstage he =>
      rw [List.append_nil]
      exact hsep.goOn hf (by simp [hstage]) (hwrite _ _) (goTo_frame _ _ _ _)
  | store hf hstage =>
      obtain ⟨hallocated, hpublished, hhidden, hapart⟩ := hsep
      constructor <;> simp only [setFrame_frame, setFrame_heap, setTable_thread,
        setTable_heap, List.mem_append, List.mem_singleton] <;> grind

/-! ## Pointers into a bucket -/

/-- The pointer leads to a list of entries stored for the bucket, all of them
written. -/
def LeadsIn (history : List (Inserted τ)) (heap : Addr → Option BucketEntry) (b : Bucket)
    (ptr : Option Addr) : Prop :=
  ∃ cells, Linked (nodeAt heap) ptr cells ∧
    ∀ cell ∈ cells, ∃ x ∈ history, bucketOf x.key = b ∧ (x.entry, x.key, x.val) = cell

omit [DecidableEq τ] in
/-- A pointer into a bucket stays one while the entries stored so far stay. -/
theorem LeadsIn.mono {heap heap' : Addr → Option BucketEntry} {b : Bucket} {ptr : Option Addr}
    (h : LeadsIn history heap b ptr) (hheap : ∀ x ∈ history, heap' x.entry = heap x.entry) :
    LeadsIn (history ++ events) heap' b ptr := by
  obtain ⟨cells, hcells, hstored⟩ := h
  refine ⟨cells, hcells.frame ?_, ?_⟩
  · intro cell hcell
    obtain ⟨x, hx, -, rfl⟩ := hstored cell hcell
    simp only [nodeAt, hheap x hx]
  · intro cell hcell
    obtain ⟨x, hx, hb⟩ := hstored cell hcell
    exact ⟨x, List.mem_append_left _ hx, hb⟩

/-- No step writes an entry of the table. -/
theorem RacyMove.heap_eq (h : RacyMove s s' events) (hsep : Separate history s) :
    ∀ x ∈ history, s'.heap x.entry = s.heap x.entry := by
  intro x hx
  cases h with
  | @malloc t e key val calls ht he =>
      have hne : x.entry ≠ e := fun heq => hsep.published x hx (heq ▸ he)
      exact (setEntry_heap s e x.entry _).trans (if_neg hne)
  | load hf hstage => rfl
  | next hf hstage he =>
      exact (setEntry_heap s _ _ _).trans (if_neg (hsep.hidden _ _ hf (by simp [hstage]) x hx))
  | key hf hstage he =>
      exact (setEntry_heap s _ _ _).trans (if_neg (hsep.hidden _ _ hf (by simp [hstage]) x hx))
  | val hf hstage he =>
      exact (setEntry_heap s _ _ _).trans (if_neg (hsep.hidden _ _ hf (by simp [hstage]) x hx))
  | store hf hstage => rfl

/-- What has been written of the entry of an `insert`; its link was the head of
the bucket at some time. -/
def StaleRight (history : List (Inserted τ)) (s : State τ Empty) (f : Frame) : Prop :=
  match f.stage with
  | .lock | .load | .unlock => True
  | .next head => LeadsIn history s.heap (bucketOf f.key) head
  | .key => ∃ key val head, s.heap f.e = some ⟨key, val, some head⟩ ∧
      LeadsIn history s.heap (bucketOf f.key) head
  | .val => ∃ val head, s.heap f.e = some ⟨some f.key, val, some head⟩ ∧
      LeadsIn history s.heap (bucketOf f.key) head
  | .store => ∃ head, s.heap f.e = some ⟨some f.key, some f.val, some head⟩ ∧
      LeadsIn history s.heap (bucketOf f.key) head

omit [DecidableEq τ] in
theorem StaleRight.mono {f : Frame} (h : StaleRight history s f)
    (hentry : s'.heap f.e = s.heap f.e) (hheap : ∀ x ∈ history, s'.heap x.entry = s.heap x.entry) :
    StaleRight (history ++ events) s' f := by
  have hleads : ∀ {b ptr}, LeadsIn history s.heap b ptr →
      LeadsIn (history ++ events) s'.heap b ptr := fun h => h.mono hheap
  unfold StaleRight at h ⊢
  rw [hentry]
  split
  · trivial
  · trivial
  · trivial
  next head hstage =>
    simp only [hstage] at h
    exact hleads h
  next hstage =>
    simp only [hstage] at h
    obtain ⟨key, val, head, he, hhead⟩ := h
    exact ⟨key, val, head, he, hleads hhead⟩
  next hstage =>
    simp only [hstage] at h
    obtain ⟨val, head, he, hhead⟩ := h
    exact ⟨val, head, he, hleads hhead⟩
  next hstage =>
    simp only [hstage] at h
    obtain ⟨head, he, hhead⟩ := h
    exact ⟨head, he, hleads hhead⟩

omit [DecidableEq τ] in
/-- A write to an entry outside the table is seen by its own thread only. -/
theorem Separate.setEntry_eq (hsep : Separate history s) {t u : τ} {f g : Frame} (hut : u ≠ t)
    (hf : (s.thread t).frame = some f) (hg : (s.thread u).frame = some g)
    (hfs : f.stage ≠ .unlock) (hgs : g.stage ≠ .unlock) (entry : BucketEntry) :
    (s.setEntry f.e entry).heap g.e = s.heap g.e := by
  rw [setEntry_heap, if_neg]
  intro heq
  exact hut (hsep.apart u t g f hg hf hgs hfs heq)

/-- The heads of the buckets lead into them, and so do the heads loaded by the
threads; no thread is at a lock operation. -/
structure Intact (history : List (Inserted τ)) (s : State τ Empty) : Prop where
  separate : Separate history s
  heads : ∀ b, LeadsIn history s.heap b (s.table b)
  unlocked : ∀ t f, (s.thread t).frame = some f → f.stage ≠ .unlock
  entries : ∀ t f, (s.thread t).frame = some f → StaleRight history s f

omit [DecidableEq τ] in
theorem intact_start (calls : τ → List (Nat × Int)) : Intact [] (State.start calls) where
  separate := ⟨by simp [State.start], by simp, by simp, by simp [State.start]⟩
  heads := fun _ => ⟨[], rfl, by simp⟩
  unlocked := by simp [State.start]
  entries := by simp [State.start]

theorem RacyMove.unlocked (h : RacyMove s s' events)
    (hunlocked : ∀ t f, (s.thread t).frame = some f → f.stage ≠ .unlock) {u : τ} {g : Frame}
    (hg : (s'.thread u).frame = some g) : g.stage ≠ .unlock := by
  have hgoes : ∀ {s : State τ Empty} {t : τ} {f : Frame} {stage : Stage},
      (∀ t f, (s.thread t).frame = some f → f.stage ≠ .unlock) → stage ≠ .unlock →
      ((s.goTo t f stage).thread u).frame = some g → g.stage ≠ .unlock := by
    intro s t f stage hs hstage hg
    rw [goTo_frame] at hg
    split at hg
    next =>
      cases hg
      exact hstage
    next => exact hs u g hg
  cases h with
  | malloc ht he =>
      simp only [Function.update_apply] at hg
      split at hg
      next =>
        cases hg
        simp
      next => exact hunlocked u g hg
  | load hf hstage => exact hgoes hunlocked (by simp) hg
  | next hf hstage he => exact hgoes hunlocked (by simp) hg
  | key hf hstage he => exact hgoes hunlocked (by simp) hg
  | val hf hstage he => exact hgoes hunlocked (by simp) hg
  | store hf hstage =>
      rw [setFrame_frame] at hg
      split at hg
      next => cases hg
      next => exact hunlocked u g hg

theorem RacyMove.entries (h : RacyMove s s' events) (hintact : Intact history s) {u : τ}
    {g : Frame} (hg : (s'.thread u).frame = some g) : StaleRight (history ++ events) s' g := by
  have hsep := hintact.separate
  have hheap := h.heap_eq hsep
  cases h with
  | @malloc t e key val calls ht he =>
      simp only [Function.update_apply] at hg
      split at hg
      next =>
        cases hg
        trivial
      next =>
        have hge : g.e ≠ e := fun heq => hsep.allocated u g hg (heq ▸ he)
        exact (hintact.entries u g hg).mono ((setEntry_heap s e g.e _).trans (if_neg hge)) hheap
  | @load t f hf hstage =>
      rw [goTo_frame] at hg
      split at hg
      next =>
        cases hg
        exact (hintact.heads (bucketOf f.key)).mono hheap
      next => exact (hintact.entries u g hg).mono rfl hheap
  | @next t f head e hf hstage he =>
      rw [goTo_frame] at hg
      split at hg
      next =>
        cases hg
        have hhead : LeadsIn history s.heap (bucketOf f.key) head := by
          simpa [StaleRight, hstage] using hintact.entries t f hf
        exact ⟨e.key, e.val, head, by simp [State.goTo], hhead.mono hheap⟩
      next hut =>
        refine (hintact.entries u g hg).mono ?_ hheap
        exact hsep.setEntry_eq hut hf hg (by simp [hstage]) (hintact.unlocked u g hg) _
  | @key t f e hf hstage he =>
      rw [goTo_frame] at hg
      split at hg
      next =>
        cases hg
        obtain ⟨key, val, head, hentry, hhead⟩ : ∃ key val head,
            s.heap f.e = some ⟨key, val, some head⟩ ∧
              LeadsIn history s.heap (bucketOf f.key) head := by
          simpa [StaleRight, hstage] using hintact.entries t f hf
        cases he.symm.trans hentry
        exact ⟨val, head, by simp [State.goTo], hhead.mono hheap⟩
      next hut =>
        refine (hintact.entries u g hg).mono ?_ hheap
        exact hsep.setEntry_eq hut hf hg (by simp [hstage]) (hintact.unlocked u g hg) _
  | @val t f e hf hstage he =>
      rw [goTo_frame] at hg
      split at hg
      next =>
        cases hg
        obtain ⟨val, head, hentry, hhead⟩ : ∃ val head,
            s.heap f.e = some ⟨some f.key, val, some head⟩ ∧
              LeadsIn history s.heap (bucketOf f.key) head := by
          simpa [StaleRight, hstage] using hintact.entries t f hf
        cases he.symm.trans hentry
        exact ⟨head, by simp [State.goTo], hhead.mono hheap⟩
      next hut =>
        refine (hintact.entries u g hg).mono ?_ hheap
        exact hsep.setEntry_eq hut hf hg (by simp [hstage]) (hintact.unlocked u g hg) _
  | @store t f hf hstage =>
      rw [setFrame_frame] at hg
      split at hg
      next => cases hg
      next => exact (hintact.entries u g hg).mono rfl hheap

/-- A store replaces the head of its bucket by an entry that links to an older
head; what lies between is lost. -/
theorem RacyMove.heads (h : RacyMove s s' events) (hintact : Intact history s) (b : Bucket) :
    LeadsIn (history ++ events) s'.heap b (s'.table b) := by
  have hheap := h.heap_eq hintact.separate
  have hold : LeadsIn (history ++ events) s'.heap b (s.table b) := (hintact.heads b).mono hheap
  cases h with
  | malloc ht he => exact hold
  | load hf hstage => exact hold
  | next hf hstage he => exact hold
  | key hf hstage he => exact hold
  | val hf hstage he => exact hold
  | @store t f hf hstage =>
      by_cases hb : b = bucketOf f.key
      · obtain ⟨head, hentry, cells, hcells, hstored⟩ : ∃ head,
            s.heap f.e = some ⟨some f.key, some f.val, some head⟩ ∧
              LeadsIn history s.heap (bucketOf f.key) head := by
          simpa [StaleRight, hstage] using hintact.entries t f hf
        have htable : ((s.setTable (bucketOf f.key) (some f.e)).setFrame t none).table b =
            some f.e := by simp [hb]
        rw [htable]
        refine ⟨(f.e, f.key, f.val) :: cells, hcells.push (by simp [nodeAt, hentry]), ?_⟩
        intro cell hcell
        rcases List.mem_cons.mp hcell with rfl | hcell
        · exact ⟨⟨t, f.key, f.val, f.e⟩, by simp, hb.symm, rfl⟩
        · obtain ⟨x, hx, hbucket, heq⟩ := hstored cell hcell
          exact ⟨x, List.mem_append_left _ hx, hbucket.trans hb.symm, heq⟩
      · simpa [hb] using hold

theorem Intact.step (hintact : Intact history s) (h : RacyMove s s' events) :
    Intact (history ++ events) s' where
  separate := h.separate hintact.separate
  heads := h.heads hintact
  unlocked := fun _ _ hg => h.unlocked hintact.unlocked hg
  entries := fun _ _ hg => h.entries hintact hg

/-! ## Stores and calls -/

/-- A call leaves the calls still to be made and enters the history in one step. -/
theorem RacyMove.order (h : RacyMove s s' events) (u : τ) :
    callsOf ((history ++ events).map Inserted.call) u ++ (s'.thread u).pending =
      callsOf (history.map Inserted.call) u ++ (s.thread u).pending := by
  cases h with
  | @malloc t e key val calls ht he =>
      rw [List.append_nil]
      by_cases hut : u = t
      · simp [Thread.pending, hut, ht]
      · simp [hut]
  | load hf hstage =>
      rw [List.append_nil]
      exact congrArg _ (pending_goTo hf (by simp [hstage]) (by simp) u)
  | next hf hstage he =>
      rw [List.append_nil]
      exact congrArg _ (pending_goTo hf (by simp [hstage]) (by simp) u)
  | key hf hstage he =>
      rw [List.append_nil]
      exact congrArg _ (pending_goTo hf (by simp [hstage]) (by simp) u)
  | val hf hstage he =>
      rw [List.append_nil]
      exact congrArg _ (pending_goTo hf (by simp [hstage]) (by simp) u)
  | @store t f hf hstage =>
      by_cases hut : u = t
      · subst hut
        simp [Thread.pending, callsOf, Inserted.call, hf, hstage]
      · simp [Thread.pending, callsOf, Inserted.call, hut, Ne.symm hut]

/-- No entry is stored twice. -/
theorem RacyMove.distinct (h : RacyMove s s' events) (hsep : Separate history s)
    (hdistinct : (history.map Inserted.entry).Nodup) :
    ((history ++ events).map Inserted.entry).Nodup := by
  cases h with
  | @store t f hf hstage =>
      rw [List.map_append, List.map_singleton, List.nodup_append]
      refine ⟨hdistinct, List.nodup_singleton _, ?_⟩
      intro a ha c hc
      obtain ⟨x, hx, rfl⟩ := List.mem_map.mp ha
      obtain rfl := List.mem_singleton.mp hc
      exact hsep.hidden t f hf (by simp [hstage]) x hx
  | _ => simpa using hdistinct

/-- What every interleaving keeps: the table, and the calls in their order. -/
structure Kept (calls : τ → List (Nat × Int)) (history : List (Inserted τ)) (s : State τ Empty) :
    Prop where
  intact : Intact history s
  distinct : (history.map Inserted.entry).Nodup
  order : ∀ t, callsOf (history.map Inserted.call) t ++ (s.thread t).pending = calls t

theorem kept_start (calls : τ → List (Nat × Int)) : Kept calls [] (State.start calls) where
  intact := intact_start calls
  distinct := List.nodup_nil
  order := fun _ => rfl

theorem Kept.step {calls : τ → List (Nat × Int)} (hkept : Kept calls history s)
    (h : RacyMove s s' events) : Kept calls (history ++ events) s' where
  intact := hkept.intact.step h
  distinct := h.distinct hkept.intact.separate hkept.distinct
  order := fun t => (h.order t).trans (hkept.order t)

/-- A table that may have lost updates, but has nothing else wrong. -/
structure Uncorrupted (calls : τ → List (Nat × Int)) (history : List (Inserted τ))
    (s : State τ Empty) : Prop where
  /-- Every bucket is a finite chain without repetitions of entries stored for it. -/
  chains : ∀ b, ∃ cells, Linked (nodeAt s.heap) (s.table b) cells ∧
    (cells.map Prod.fst).Nodup ∧
      ∀ cell ∈ cells, bucketOf cell.2.1 = b ∧ ∃ x ∈ history, (x.entry, x.key, x.val) = cell
  /-- The stores of a thread are those of its first calls, each with its own entry. -/
  inserted : ∀ t, callsOf (history.map Inserted.call) t <+: calls t
  distinct : (history.map Inserted.entry).Nodup
  /-- `retrieve` returns, and an entry it returns was stored with the key. -/
  retrieves : ∀ key, ∃ result, (∀ fuel, history.length ≤ fuel →
    s.retrieve fuel key = some result) ∧ ∀ a ∈ result, ∃ x ∈ history, x.entry = a ∧
      x.key = key ∧ ∃ next, s.heap a = some ⟨some key, some x.val, some next⟩

omit [DecidableEq τ] in
/-- `retrieve` over a pointer into the bucket of its key. -/
theorem LeadsIn.retrieves {heap : Addr → Option BucketEntry} {b : Bucket} {ptr : Option Addr}
    (h : LeadsIn history heap b ptr) (key : Nat) :
    ∃ result, (∀ fuel, history.length ≤ fuel → retrieveLoop heap key fuel ptr = some result) ∧
      ∀ a ∈ result, ∃ x ∈ history, x.entry = a ∧ x.key = key ∧
        ∃ next, heap a = some ⟨some key, some x.val, some next⟩ := by
  obtain ⟨cells, hcells, hstored⟩ := h
  have hsubset : cells.map Prod.fst ⊆ history.map Inserted.entry := by
    intro a ha
    obtain ⟨cell, hcell, rfl⟩ := List.mem_map.mp ha
    obtain ⟨x, hx, -, rfl⟩ := hstored cell hcell
    exact List.mem_map_of_mem hx
  have hlength : cells.length ≤ history.length := by
    simpa using (List.Nodup.subperm hcells.nodup hsubset).length_le
  refine ⟨_, fun fuel hfuel => retrieveLoop_of_linked hcells key (Nat.le_trans hlength hfuel), ?_⟩
  intro a ha
  obtain ⟨cell, hfind, rfl⟩ := Option.map_eq_some_iff.mp ha
  have hkey : cell.2.1 = key := by simpa using List.find?_some hfind
  have hcell := List.mem_of_find?_eq_some hfind
  obtain ⟨next, hnode⟩ := hcells.node_of_mem hcell
  obtain ⟨x, hx, -, rfl⟩ := hstored cell hcell
  subst hkey
  exact ⟨x, hx, rfl, rfl, next, heap_of_nodeAt hnode⟩

/-- Whatever the interleaving, the table of `parallel_hashtable.c` is not corrupted. -/
theorem racy_uncorrupted (calls : τ → List (Nat × Int)) {history : List (Inserted τ)}
    {s : State τ Empty} (h : Reachable noLocks calls history s) :
    Uncorrupted calls history s := by
  have hkept : Kept calls history s :=
    h.invariant (kept_start calls) fun _ _ _ _ _ hprior _ hstep =>
      hprior.step (step_racyMove hstep)
  obtain ⟨hintact, hdistinct, horder⟩ := hkept
  refine ⟨?_, fun t => ⟨_, horder t⟩, hdistinct, fun key => (hintact.heads _).retrieves key⟩
  intro b
  obtain ⟨cells, hcells, hstored⟩ := hintact.heads b
  refine ⟨cells, hcells, hcells.nodup, ?_⟩
  intro cell hcell
  obtain ⟨x, hx, hbucket, rfl⟩ := hstored cell hcell
  exact ⟨hbucket, x, hx, rfl⟩

/-- Two threads that load the same head. -/
def racingSteps : List (Action Bool) :=
  [.malloc true 0, .malloc false 1, .run true, .run false, .run true, .run false, .run true,
    .run false, .run true, .run false, .run true, .run false]

/-- One insert for each thread, into the same bucket. -/
def racingCalls (t : Bool) : List (Nat × Int) := if t then [(3, 1)] else [(8, 2)]

theorem racing_isSome :
    (run (fun s => State.step s noLocks) (State.start racingCalls) racingSteps).isSome := by
  decide

/-- The insert of 3 is lost. -/
theorem racy_uncorrupted_racing : ∃ history s, Reachable noLocks racingCalls history s ∧
    s.retrieve 2 3 = some none ∧ s.retrieve 2 8 = some (some 1) ∧
      Uncorrupted racingCalls history s := by
  have hreach : Reachable noLocks racingCalls _ _ :=
    Reach.of_isSome racingSteps (admitted_anyStep _ _) racing_isSome
  exact ⟨_, _, hreach, by decide, by decide, racy_uncorrupted racingCalls hreach⟩

end OsCourse.HashTable
