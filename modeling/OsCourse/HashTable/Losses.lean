import OsCourse.HashTable.Completion
import OsCourse.HashTable.Racy

/-! # What is lost without locks

The whole process of `parallel_hashtable.c`. Past the barrier nobody writes to
the table any more, and a thread of `get_phase` comes to the end of every chain.
So what the threads report as lost, and what `main` adds up, is exactly the
number of keys that are not in the table, whatever has been lost from it.
-/

namespace OsCourse.HashTable

open LinkedList MachineInt Transition

variable {n : Nat} {keys : List Nat} {p q : Program n Empty}
  {history events : List (Inserted (Fin n))}

/-- `retrieve` does not find the key. -/
def missing (keys : List Nat) (s : State (Fin n) Empty) (k : Nat) : Bool :=
  s.retrieve keys.length k = some none

/-- How many keys thread `i` has not found before it comes to `key`. -/
def tally (keys : List Nat) (s : State (Fin n) Empty) (i : Fin n) (key : Int) : Nat :=
  (issued keys i key).countP fun call => missing keys s call.1

/-! ## The shares of the threads -/

theorem sum_one_share (i : Fin n) (share : Nat) : (∑ j, if j = i then share else 0) = share :=
  (Finset.sum_eq_single i (fun _ _ hj => if_neg hj) (by simp)).trans (if_pos rfl)

/-- Every element has one class. -/
theorem sum_countP_class {α : Type*} (g : α → Fin n) (f : α → Bool) (l : List α) :
    ∑ i, l.countP (fun x => f x && decide (g x = i)) = l.countP f := by
  induction l with
  | nil => simp
  | cons x rest ih =>
      simp only [List.countP_cons, Finset.sum_add_distrib, ih]
      by_cases hx : f x
      · have hone := sum_one_share (g x) 1
        simp only [hx, Bool.true_and, decide_eq_true_eq, eq_comm (a := g x), hone, if_true]
      · simp [hx]

/-- Together the threads take every key once. -/
theorem sum_issued (hn : 0 < n) (keys : List Nat) (f : Nat → Bool) :
    ∑ i : Fin n, (issued keys i keys.length).countP (fun call => f call.1) = keys.countP f := by
  have hshare : ∀ i : Fin n, (issued keys i keys.length).countP (fun call => f call.1) =
      keys.zipIdx.countP fun x => f x.1 && decide ((⟨x.2 % n, Nat.mod_lt _ hn⟩ : Fin n) = i) := by
    intro i
    rw [issued, List.countP_map, List.countP_filter]
    apply List.countP_congr
    intro x hx
    have hlt := (List.mem_zipIdx' hx).1
    simp [Fin.ext_iff, hlt]
  calc ∑ i : Fin n, (issued keys i keys.length).countP (fun call => f call.1)
      = keys.zipIdx.countP fun x => f x.1 := by
        rw [Finset.sum_congr rfl fun i _ => hshare i]
        exact sum_countP_class (fun x => ⟨x.2 % n, Nat.mod_lt _ hn⟩) (fun x => f x.1) keys.zipIdx
    _ = keys.countP f := by
        conv_rhs => rw [← List.zipIdx_map_fst 0 keys, List.countP_map]
        rfl

/-- When every thread has made its calls there are as many entries as keys. -/
theorem length_of_issued (hn : 0 < n)
    (h : ∀ i, callsOf (history.map Inserted.call) i = issued keys i keys.length) :
    history.length = keys.length := by
  have hstores := sum_countP_class (fun x : Fin n × Nat × Int => x.1) (fun _ => true)
    (history.map Inserted.call)
  have hkeys := sum_issued hn keys fun _ => true
  have hshare : ∀ i, (history.map Inserted.call).countP (fun x => true && decide (x.1 = i)) =
      (issued keys i keys.length).countP fun _ => true := by
    intro i
    rw [← h i]
    simp only [callsOf, List.countP_eq_length_filter, List.filter_true, List.length_map,
      Bool.true_and]
  simp only [hshare, hkeys] at hstores
  simpa using hstores.symm

theorem tally_first (s : State (Fin n) Empty) (i : Fin n) : tally keys s i i = 0 := by
  rw [tally, issued_first]
  rfl

theorem tally_all (s : State (Fin n) Empty) {i : Fin n} {key : Int} (hkey : keys.length ≤ key) :
    tally keys s i key = tally keys s i keys.length := by
  rw [tally, tally, issued_all hkey]

theorem tally_next (s : State (Fin n) Empty) {i : Fin n} {key : Int} (hkey : OnStride i key)
    {k : Nat} (hk : keyAt keys key = some k) :
    tally keys s i (key + n) = tally keys s i key + if missing keys s k then 1 else 0 := by
  rw [tally, tally, issued_next hkey hk, List.countP_append, List.countP_singleton]

/-! ## Steps of an insert without locks -/

section Memory

variable {τ : Type*} [DecidableEq τ] {s s' : State τ Empty} {record stores : List (Inserted τ)}
  {calls : τ → List (Nat × Int)}

theorem RacyMove.left_lt (h : RacyMove s s' stores) :
    ∃ t, (s'.thread t).left < (s.thread t).left ∧ ∀ u, u ≠ t → s'.thread u = s.thread u := by
  cases h with
  | @malloc t e key val calls ht he =>
      refine ⟨t, ?_, fun u hu => Function.update_of_ne hu ..⟩
      simp only [Function.update_self, ht, Thread.left, Stage.left, List.length_cons,
        Option.elim_some, Option.elim_none]
      omega
  | @load t f hf hstage =>
      refine ⟨t, left_setFrame_lt hf ?_, fun u hu => Function.update_of_ne hu ..⟩
      simp [hstage, Stage.left]
  | @next t f head e hf hstage he =>
      refine ⟨t, left_setFrame_lt hf ?_, fun u hu => Function.update_of_ne hu ..⟩
      simp [hstage, Stage.left]
  | @key t f e hf hstage he =>
      refine ⟨t, left_setFrame_lt hf ?_, fun u hu => Function.update_of_ne hu ..⟩
      simp [hstage, Stage.left]
  | @val t f e hf hstage he =>
      refine ⟨t, left_setFrame_lt hf ?_, fun u hu => Function.update_of_ne hu ..⟩
      simp [hstage, Stage.left]
  | @store t f hf hstage =>
      refine ⟨t, left_setFrame_lt hf ?_, fun u hu => Function.update_of_ne hu ..⟩
      simp [hstage, Stage.left]

theorem RacyMove.hasFresh (h : RacyMove s s' stores) (hfresh : HasFresh s.heap) :
    HasFresh s'.heap := by
  cases h with
  | malloc ht he => exact hfresh.update ..
  | load hf hstage => exact hfresh
  | next hf hstage he => exact hfresh.update ..
  | key hf hstage he => exact hfresh.update ..
  | val hf hstage he => exact hfresh.update ..
  | store hf hstage => exact hfresh

/-- No thread comes to a lock. -/
theorem RacyMove.lockless (h : RacyMove s s' stores)
    (hlockless : ∀ t f, (s.thread t).frame = some f → f.stage ≠ .lock) {u : τ} {g : Frame}
    (hg : (s'.thread u).frame = some g) : g.stage ≠ .lock := by
  have hgoes : ∀ {m : State τ Empty} {t : τ} {f : Frame} {stage : Stage},
      m.thread = s.thread → stage ≠ .lock →
        ((m.goTo t f stage).thread u).frame = some g → g.stage ≠ .lock := by
    intro m t f stage hm hstage hg
    rw [goTo_frame] at hg
    split at hg
    next =>
      cases hg
      exact hstage
    next => exact hlockless u g (hm ▸ hg)
  cases h with
  | malloc ht he =>
      simp only [Function.update_apply] at hg
      split at hg
      next =>
        cases hg
        simp
      next => exact hlockless u g hg
  | load hf hstage => exact hgoes rfl (by simp) hg
  | next hf hstage he => exact hgoes rfl (by simp) hg
  | key hf hstage he => exact hgoes rfl (by simp) hg
  | val hf hstage he => exact hgoes rfl (by simp) hg
  | store hf hstage =>
      rw [setFrame_frame] at hg
      split at hg
      next => cases hg
      next => exact hlockless u g hg

theorem Kept.giveCall (h : Kept calls record s) (t : τ) (call : Nat × Int) :
    Kept (Function.update calls t (calls t ++ [call])) record (s.giveCall t call) := by
  obtain ⟨⟨⟨hallocated, hpublished, hhidden, hapart⟩, hheads, hunlocked, hentries⟩, hdistinct,
    horder⟩ := h
  refine ⟨⟨⟨?_, hpublished, ?_, ?_⟩, hheads, ?_, ?_⟩, hdistinct, fun u => ?_⟩
  · simp only [giveCall_frame]
    exact hallocated
  · simp only [giveCall_frame]
    exact hhidden
  · simp only [giveCall_frame]
    exact hapart
  · simp only [giveCall_frame]
    exact hunlocked
  · simp only [giveCall_frame]
    intro u f hf
    have hentry := hentries u f hf
    unfold StaleRight at hentry ⊢
    exact hentry
  · rw [giveCall_pending]
    by_cases hut : u = t
    · subst hut
      rw [if_pos rfl, ← List.append_assoc, horder, Function.update_self]
    · rw [if_neg hut, horder, Function.update_of_ne hut]

/-- A thread with a call to make or to finish can go on. -/
theorem Kept.exists_step (h : Kept calls record s) (hfresh : HasFresh s.heap)
    (hlockless : ∀ t f, (s.thread t).frame = some f → f.stage ≠ .lock) {t : τ}
    (hbusy : s.thread t ≠ ⟨none, []⟩) : ∃ a, (s.step noLocks a).isSome := by
  cases hf : (s.thread t).frame with
  | none =>
      obtain ⟨bound, hbound⟩ := hfresh
      cases hcalls : (s.thread t).calls with
      | nil => exact absurd (by rw [← hf, ← hcalls]) hbusy
      | cons call calls =>
          have ht : s.thread t = ⟨none, call :: calls⟩ := by rw [← hf, ← hcalls]
          exact ⟨.malloc t bound, by simp [State.step, ht, hbound bound (Nat.le_refl _)]⟩
  | some f =>
      obtain ⟨e, he⟩ := Option.ne_none_iff_exists'.mp (h.intact.separate.allocated t f hf)
      refine ⟨.run t, ?_⟩
      cases hstage : f.stage with
      | lock => exact absurd hstage (hlockless t f hf)
      | unlock => exact absurd hstage (h.intact.unlocked t f hf)
      | _ => simp [State.step, State.advance, hf, hstage, he]

end Memory

/-! ## The invariant -/

/-- What is left of the chain has the key if the table has it. -/
def Seeks (keys : List Nat) (s : State (Fin n) Empty) (k : Nat) (ptr : Option Addr) : Prop :=
  ∃ cells, Linked (nodeAt s.heap) ptr cells ∧ cells.length ≤ keys.length ∧
    ((∃ cell ∈ cells, cell.2.1 = k) ↔ missing keys s k = false)

/-- What holds of a thread by where it is. -/
def WorkerTallies (keys : List Nat) (s : State (Fin n) Empty) (i : Fin n) : Worker → Prop
  | .absent | .putDone => s.thread i = ⟨none, []⟩
  | .put key => s.thread i = ⟨none, []⟩ ∧ OnStride i key
  | .inserting key => OnStride i key ∧ key < keys.length
  | .get key lost => s.thread i = ⟨none, []⟩ ∧ OnStride i key ∧ lost = tally keys s i key
  | .probe key lost b =>
      s.thread i = ⟨none, []⟩ ∧ OnStride i key ∧ lost = tally keys s i key ∧ key < keys.length ∧
        ∃ k, keyAt keys key = some k ∧ Seeks keys s k b
  | .follow key lost b =>
      s.thread i = ⟨none, []⟩ ∧ OnStride i key ∧ lost = tally keys s i key ∧ key < keys.length ∧
        ∃ k x next, keyAt keys key = some k ∧ nodeAt s.heap b = some (x, next) ∧
          Seeks keys s k next
  | .returned lost => s.thread i = ⟨none, []⟩ ∧ lost = tally keys s i keys.length

/-- Where thread `i` can be, as seen from `main`. -/
def Main.Places (m : Main) (i : Nat) (w : Worker) : Prop :=
  match m.loop with
  | .createPut => if i < m.i then w.Putting else w = .absent
  | .joinPut => w.Putting ∧ (i < m.i → w = .putDone)
  | .createGet => if i < m.i then w.Getting else w = .putDone
  | .joinGet => w.Getting ∧ (i < m.i → ∃ lost, w = .returned lost)
  | .done => ∃ lost, w = .returned lost

/-- `main` has added up what the threads it has joined have lost. -/
def Main.Adds (keys : List Nat) (s : State (Fin n) Empty) (m : Main) : Prop :=
  match m.loop with
  | .joinGet => m.totalLost = ∑ i : Fin n, if i < m.i then tally keys s i keys.length else 0
  | .done => m.totalLost = ∑ i : Fin n, tally keys s i keys.length
  | _ => True

theorem adds_of_putting {s : State (Fin n) Empty} {m : Main} (h : ¬ m.PutsJoined) :
    m.Adds keys s := by
  unfold Main.Adds
  cases hloop : m.loop with
  | joinGet => exact absurd ⟨by simp [hloop], by simp [hloop]⟩ h
  | done => exact absurd ⟨by simp [hloop], by simp [hloop]⟩ h
  | _ => trivial

structure Tallied (keys : List Nat) (history : List (Inserted (Fin n))) (p : Program n Empty) :
    Prop where
  adds : p.main.Adds keys p.memory
  placed : ∀ i : Fin n, p.main.Places i (p.worker i)
  workers : ∀ i, WorkerTallies keys p.memory i (p.worker i)
  lockless : ∀ t f, (p.memory.thread t).frame = some f → f.stage ≠ .lock
  fresh : HasFresh p.memory.heap
  kept : Kept (fun i => issuedBy keys i (p.worker i)) history p.memory

theorem tallied_start : Tallied keys [] (Program.start : Program n Empty) where
  adds := trivial
  placed := fun _ => rfl
  workers := fun _ => rfl
  lockless := nofun
  fresh := ⟨0, fun _ _ => rfl⟩
  kept := kept_start _

theorem Main.Places.goOn {m : Main} {i : Nat} {w w' : Worker} (h : m.Places i w)
    (hdone : w ≠ .putDone) (hreturned : ∀ lost, w ≠ .returned lost) (habsent : w ≠ .absent)
    (hput : w.Putting → w'.Putting) (hget : w.Getting → w'.Getting) : m.Places i w' := by
  have hnot : ¬∃ lost, w = .returned lost := fun ⟨lost, heq⟩ => hreturned lost heq
  unfold Main.Places at h ⊢
  split at h
  next =>
    split at h
    next hi => simpa [hi] using hput h
    next => exact absurd h habsent
  next => exact ⟨hput h.1, fun hi => absurd (h.2 hi) hdone⟩
  next =>
    split at h
    next hi => simpa [hi] using hget h
    next => exact absurd h hdone
  next => exact ⟨hget h.1, fun hi => absurd (h.2 hi) hnot⟩
  next => exact absurd h hnot

theorem Main.Places.putsJoined {m : Main} {i : Nat} {w : Worker} (h : m.Places i w)
    (hw : w.Getting) : m.PutsJoined := by
  constructor <;> intro hloop <;> simp only [Main.Places, hloop] at h
  · split at h
    next => cases w <;> simp_all [Worker.Putting, Worker.Getting]
    next => simp [h, Worker.Getting] at hw
  · cases w <;> simp_all [Worker.Putting, Worker.Getting]

theorem Main.PutsJoined.past {m : Main} (hm : m.PutsJoined) {i : Nat} {w : Worker}
    (h : m.Places i w) : w = .putDone ∨ w.Getting := by
  unfold Main.Places at h
  split at h
  next hloop => exact absurd hloop hm.1
  next hloop => exact absurd hloop hm.2
  next =>
    split at h
    next => exact .inr h
    next => exact .inl h
  next => exact .inr h.1
  next =>
    obtain ⟨lost, rfl⟩ := h
    exact .inr trivial

theorem WorkerTallies.idle {s : State (Fin n) Empty} {i : Fin n} {w : Worker}
    (h : WorkerTallies keys s i w) (hw : ∀ key, w ≠ .inserting key) :
    s.thread i = ⟨none, []⟩ := by
  cases w with
  | absent => exact h
  | put key => exact h.1
  | inserting key => exact absurd rfl (hw key)
  | putDone => exact h
  | get key lost => exact h.1
  | probe key lost b => exact h.1
  | follow key lost b => exact h.1
  | returned lost => exact h.1

/-- A thread of `put_phase` is where it was as long as its own calls are. -/
theorem WorkerTallies.congr {s s' : State (Fin n) Empty} {i : Fin n} {w : Worker}
    (h : WorkerTallies keys s i w) (hthread : s'.thread i = s.thread i)
    (hmemory : w.Getting → s'.heap = s.heap ∧ s'.table = s.table) :
    WorkerTallies keys s' i w := by
  have htally : w.Getting → ∀ key, tally keys s' i key = tally keys s i key := by
    intro hw key
    obtain ⟨hheap, htable⟩ := hmemory hw
    unfold tally missing State.retrieve
    rw [hheap, htable]
  have hseeks : w.Getting → ∀ k ptr, Seeks keys s k ptr → Seeks keys s' k ptr := by
    intro hw k ptr
    obtain ⟨hheap, htable⟩ := hmemory hw
    unfold Seeks missing State.retrieve
    rw [hheap, htable]
    exact id
  cases w with
  | absent => exact hthread.trans h
  | put key => exact ⟨hthread.trans h.1, h.2⟩
  | inserting key => exact h
  | putDone => exact hthread.trans h
  | get key lost => exact ⟨hthread.trans h.1, h.2.1, h.2.2.trans (htally trivial key).symm⟩
  | probe key lost b =>
      obtain ⟨hidle, hstride, hlost, hlt, k, hk, hahead⟩ := h
      exact ⟨hthread.trans hidle, hstride, hlost.trans (htally trivial key).symm, hlt, k, hk,
        hseeks trivial k b hahead⟩
  | follow key lost b =>
      obtain ⟨hidle, hstride, hlost, hlt, k, x, next, hk, hnode, hahead⟩ := h
      exact ⟨hthread.trans hidle, hstride, hlost.trans (htally trivial key).symm, hlt, k, x, next,
        hk, (hmemory trivial).1 ▸ hnode, hseeks trivial k next hahead⟩
  | returned lost => exact ⟨hthread.trans h.1, h.2.trans (htally trivial _).symm⟩

theorem LeadsIn.length_le {τ : Type*} {record : List (Inserted τ)}
    {heap : Addr → Option BucketEntry} {b : Bucket} {ptr : Option Addr}
    {cells : List (Addr × Nat × Int)} (hcells : Linked (nodeAt heap) ptr cells)
    (hstored : ∀ cell ∈ cells, ∃ x ∈ record, bucketOf x.key = b ∧ (x.entry, x.key, x.val) = cell) :
    cells.length ≤ record.length := by
  have hsubset : cells.map Prod.fst ⊆ record.map Inserted.entry := by
    intro a ha
    obtain ⟨cell, hcell, rfl⟩ := List.mem_map.mp ha
    obtain ⟨x, hx, -, rfl⟩ := hstored cell hcell
    exact List.mem_map_of_mem hx
  simpa using (List.Nodup.subperm hcells.nodup hsubset).length_le

/-- At the start of `retrieve` the whole chain is ahead. -/
theorem seeks_of_leadsIn {s : State (Fin n) Empty} (hlength : history.length ≤ keys.length)
    {k : Nat} (h : LeadsIn history s.heap (bucketOf k) (s.table (bucketOf k))) :
    Seeks keys s k (s.table (bucketOf k)) := by
  obtain ⟨cells, hcells, hstored⟩ := h
  have hshort := (LeadsIn.length_le hcells hstored).trans hlength
  refine ⟨cells, hcells, hshort, ?_⟩
  rw [missing, State.retrieve, retrieveLoop_of_linked hcells k hshort]
  simp

theorem not_seeks_none {s : State (Fin n) Empty} {k : Nat} (h : Seeks keys s k none) :
    missing keys s k = true := by
  obtain ⟨cells, hcells, -, hkey⟩ := h
  cases cells with
  | nil => simpa using hkey
  | cons head rest => cases hcells.1

/-- At an entry with the key the table has it; at another one the rest of the chain is ahead. -/
theorem Seeks.node {s : State (Fin n) Empty} {k : Nat} {a : Addr}
    (h : Seeks keys s k (some a)) : ∃ x next, nodeAt s.heap a = some (x, next) ∧
      (x.1 = k → missing keys s k = false) ∧ (x.1 ≠ k → Seeks keys s k next) := by
  obtain ⟨cells, hcells, hlength, hkey⟩ := h
  cases cells with
  | nil => cases hcells
  | cons head rest =>
      obtain ⟨heq, next, hnode, hrest⟩ := hcells
      cases heq
      refine ⟨head.2, next, hnode, fun hhead => hkey.mp ⟨head, by simp, hhead⟩, fun hhead => ?_⟩
      refine ⟨rest, hrest, Nat.le_of_succ_le hlength, ?_⟩
      rw [← hkey]
      simp [hhead]

theorem walk_le_of_seeks {s : State (Fin n) Empty} {k : Nat} {ptr : Option Addr}
    (h : Seeks keys s k ptr) : walk (nodeAt s.heap) (keys.length + 1) ptr ≤ keys.length := by
  obtain ⟨cells, hlinked, hlength, -⟩ := h
  rw [hlinked.walk_eq (Nat.le_succ_of_le hlength)]
  exact hlength

theorem walk_of_seeks_next {s : State (Fin n) Empty} {k : Nat} {a : Addr} {x : Nat × Int}
    {next : Option Addr} (hnode : nodeAt s.heap a = some (x, next)) (h : Seeks keys s k next) :
    walk (nodeAt s.heap) (keys.length + 1) (some a) =
      walk (nodeAt s.heap) (keys.length + 1) next + 1 := by
  obtain ⟨cells, hlinked, hlength, -⟩ := h
  rw [hlinked.walk_eq (Nat.le_succ_of_le hlength),
    (hlinked.push hnode).walk_eq (Nat.succ_le_succ hlength), List.length_cons]

namespace Tallied

variable (h : Tallied keys history p)
include h

/-- Past the barrier every call has been made. -/
theorem seeks (hn : 1 ≤ n) (hjoined : p.main.PutsJoined) (k : Nat) :
    Seeks keys p.memory k (p.memory.table (bucketOf k)) := by
  have hlength : history.length = keys.length := length_of_issued hn fun i => ?_
  · exact seeks_of_leadsIn hlength.le (h.kept.intact.heads (bucketOf k))
  have hpast := hjoined.past (h.placed i)
  have hidle : p.memory.thread i = ⟨none, []⟩ := by
    refine (h.workers i).idle fun key heq => ?_
    simp [heq, Worker.Getting] at hpast
  have horder := h.kept.order i
  rwa [hidle, Thread.pending, List.append_nil, issuedBy_over hpast] at horder

/-- A thread moves, and `main` with it. -/
theorem update {m : Main} {i : Fin n} {w : Worker} (hadds : m.Adds keys p.memory)
    (hplaced : ∀ j : Fin n, m.Places j (if j = i then w else p.worker j))
    (hworker : WorkerTallies keys p.memory i w)
    (hissued : issuedBy keys i w = issuedBy keys i (p.worker i)) :
    Tallied keys history ((p.setWorker i w).setMain m) := by
  have hupdate : ∀ j, ((p.setWorker i w).setMain m).worker j = if j = i then w else p.worker j :=
    fun j => Function.update_apply ..
  refine ⟨hadds, fun j => ?_, fun j => ?_, h.lockless, h.fresh, ?_⟩
  · rw [hupdate]
    exact hplaced j
  · rw [hupdate]
    split
    next heq =>
      subst heq
      exact hworker
    next => exact h.workers j
  · have hcalls : (fun j => issuedBy keys j (((p.setWorker i w).setMain m).worker j)) =
        fun j => issuedBy keys j (p.worker j) := by
      funext j
      rw [hupdate]
      split
      next heq =>
        subst heq
        exact hissued
      next => rfl
    rw [hcalls]
    exact h.kept

/-- A thread goes on in its phase without a step of `insert`. -/
theorem setWorker {i : Fin n} {w w' : Worker} (hw : p.worker i = w) (hdone : w ≠ .putDone)
    (hreturned : ∀ lost, w ≠ .returned lost) (habsent : w ≠ .absent)
    (hput : w.Putting → w'.Putting) (hget : w.Getting → w'.Getting)
    (hworker : WorkerTallies keys p.memory i w')
    (hissued : issuedBy keys i w' = issuedBy keys i w) :
    Tallied keys history (p.setWorker i w') := by
  refine h.update (m := p.main) h.adds (fun j => ?_) hworker (hw ▸ hissued)
  split
  next heq =>
    subst heq
    exact (hw ▸ h.placed j).goOn hdone hreturned habsent hput hget
  next => exact h.placed j

theorem setMain {m : Main} (hadds : m.Adds keys p.memory)
    (hplaced : ∀ i : Fin n, m.Places i (p.worker i)) : Tallied keys history (p.setMain m) :=
  ⟨hadds, hplaced, h.workers, h.lockless, h.fresh, h.kept⟩

/-- A step of `insert` is one of a `put_phase` thread, at a time when there is no
`get_phase` thread. -/
theorem inserting {s : State (Fin n) Empty} (hmove : RacyMove p.memory s events) :
    ∃ t key, p.worker t = .inserting key ∧ (s.thread t).left < (p.memory.thread t).left ∧
      (∀ u, u ≠ t → s.thread u = p.memory.thread u) ∧ ¬ p.main.PutsJoined ∧
        ∀ u, ¬(p.worker u).Getting := by
  obtain ⟨t, hleft, hothers⟩ := hmove.left_lt
  obtain ⟨key, hw⟩ : ∃ key, p.worker t = .inserting key := by
    by_contra hnot
    have hidle := (h.workers t).idle fun key heq => hnot ⟨key, heq⟩
    simp [hidle, Thread.left] at hleft
  have hputting : ¬ p.main.PutsJoined := by
    intro hjoined
    have hpast := hjoined.past (h.placed t)
    simp [hw, Worker.Getting] at hpast
  exact ⟨t, key, hw, hleft, hothers, hputting,
    fun u hget => hputting ((h.placed u).putsJoined hget)⟩

theorem memory_step {s : State (Fin n) Empty} (hmove : RacyMove p.memory s events) :
    Tallied keys (history ++ events) { p with memory := s } ∧
      ({ p with memory := s } : Program n Empty).left keys < p.left keys := by
  obtain ⟨t, key, hw, hleft, hothers, hputting, hnone⟩ := h.inserting hmove
  refine ⟨⟨?_, h.placed, fun u => ?_, fun _ _ hg => hmove.lockless h.lockless hg,
    hmove.hasFresh h.fresh, h.kept.step hmove⟩, ?_⟩
  · exact adds_of_putting hputting
  · by_cases hut : u = t
    · subst hut
      have hworker := h.workers u
      rw [hw] at hworker
      exact hw ▸ hworker
    · exact (h.workers u).congr (hothers u hut) fun hget => absurd hget (hnone u)
  · refine left_lt_of_worker (Nat.le_refl _) (i := t) ?_ fun j hjt => ?_
    · simp only [hw, Worker.left]
      omega
    · exact (left_congr (hothers j hjt) fun hget => absurd hget (hnone j)).le

theorem putCall (hfit : ThreadsFit keys n) {i : Fin n} {key : Int} {k : Nat}
    (hw : p.worker i = .put key) (hlt : key < keys.length) (hk : keyAt keys key = some k) :
    Tallied keys history
      { p.setWorker i (.inserting key) with memory := p.memory.giveCall i (k, wrap i) } := by
  have hupdate : ∀ j, (p.setWorker i (.inserting key)).worker j =
      if j = i then .inserting key else p.worker j := fun j => Function.update_apply ..
  obtain ⟨-, hstride⟩ : p.memory.thread i = ⟨none, []⟩ ∧ OnStride i key := by
    have hworker := h.workers i
    rwa [hw] at hworker
  refine ⟨h.adds, fun j => ?_, fun j => ?_, ?_, h.fresh, ?_⟩
  · rw [hupdate]
    split
    next heq =>
      subst heq
      exact (hw ▸ h.placed j).goOn (by simp) (by simp) (by simp) id id
    next => exact h.placed j
  · rw [hupdate]
    split
    next heq =>
      subst heq
      exact ⟨hstride, hlt⟩
    next hji => exact (h.workers j).congr (Function.update_of_ne hji ..) fun _ => ⟨rfl, rfl⟩
  · simp only [giveCall_frame]
    exact h.lockless
  · have hcalls : (fun j => issuedBy keys j ((p.setWorker i (.inserting key)).worker j)) =
        Function.update (fun j => issuedBy keys j (p.worker j)) i
          (issuedBy keys i (p.worker i) ++ [(k, wrap i)]) := by
      funext j
      rw [hupdate, Function.update_apply]
      split
      next heq =>
        subst heq
        rw [hw, hfit.wrap_first]
        exact issued_next hstride hk
      next => rfl
    rw [hcalls]
    exact h.kept.giveCall i (k, wrap i)

/-- A step of a loop over the keys, or of `retrieve`. -/
theorem worker_step (hfit : ThreadsFit keys n) {i : Fin n} (hq : p.workerStep keys i = some q) :
    Tallied keys history q ∧ q.left keys < p.left keys := by
  have hworker := h.workers i
  unfold Program.workerStep at hq
  cases hw : p.worker i with
  | absent => simp [hw] at hq
  | putDone => simp [hw] at hq
  | returned lost => simp [hw] at hq
  | put key =>
      rw [hw] at hworker
      simp only [hw] at hq
      split at hq
      next hlt =>
        obtain ⟨k, hk, rfl⟩ := Option.map_eq_some_iff.mp hq
        refine ⟨h.putCall hfit hw hlt hk, ?_⟩
        have hturns := turnsLeft_next hworker.2.1 hlt
        refine left_lt_of_worker (Nat.le_refl _) (i := i) ?_ fun j hji => ?_
        · simp [Program.setWorker, hw, Worker.left, State.giveCall, hworker.1, Thread.left, hturns]
          omega
        · simp only [Program.setWorker, Function.update_of_ne hji]
          refine Nat.le_of_eq (left_congr ?_ fun _ => rfl)
          exact Function.update_of_ne hji ..
      next hge =>
        cases hq
        refine ⟨h.setWorker hw (by simp) (by simp) (by simp) id id hworker.1
          (issued_all (Int.not_lt.mp hge)).symm, left_setWorker_lt hw ?_⟩
        simp only [Worker.left]
        omega
  | inserting key =>
      rw [hw] at hworker
      simp only [hw] at hq
      split at hq
      next hidle =>
        cases hq
        rw [hfit.wrap_next hworker.1.1 hworker.2]
        refine ⟨h.setWorker hw (by simp) (by simp) (by simp) id id ⟨hidle, hworker.1.next⟩ rfl,
          left_setWorker_lt hw ?_⟩
        have hskip := turnsLeft_skip keys hfit.pos hworker.1.1
        simp only [Worker.left]
        omega
      next => cases hq
  | get key lost =>
      rw [hw] at hworker
      obtain ⟨hidle, hstride, hlost⟩ := hworker
      simp only [hw] at hq
      split at hq
      next hlt =>
        obtain ⟨k, hk, rfl⟩ := Option.map_eq_some_iff.mp hq
        have hjoined := (h.placed i).putsJoined (hw ▸ trivial)
        have hseeks := h.seeks hfit.pos hjoined k
        refine ⟨h.setWorker hw (by simp) (by simp) (by simp) id id
          ⟨hidle, hstride, hlost, hlt, k, hk, hseeks⟩ rfl, left_setWorker_lt hw ?_⟩
        have hwalk := walk_le_of_seeks hseeks
        simp only [Worker.left, turnsLeft_next hstride.1 hlt, Nat.add_mul, Nat.one_mul]
        unfold getTurn
        omega
      next hge =>
        cases hq
        refine ⟨h.setWorker hw (by simp) (by simp) (by simp) id id
          ⟨hidle, hlost.trans (tally_all _ (Int.not_lt.mp hge))⟩ rfl, left_setWorker_lt hw ?_⟩
        exact Nat.succ_pos _
  | probe key lost b =>
      rw [hw] at hworker
      obtain ⟨hidle, hstride, hlost, hlt, k, hk, hseeks⟩ := hworker
      have htally := tally_next p.memory hstride hk
      have hskip := getTurn_mul_le keys (turnsLeft_skip keys hfit.pos hstride.1)
      cases b with
      | none =>
          simp only [hw] at hq
          cases hq
          rw [hfit.wrap_next hstride.1 hlt]
          rw [not_seeks_none hseeks, if_pos rfl, ← hlost] at htally
          refine ⟨h.setWorker hw (by simp) (by simp) (by simp) id id
            ⟨hidle, hstride.next, htally.symm⟩ rfl, left_setWorker_lt hw ?_⟩
          simp only [Worker.left]
          omega
      | some a =>
          obtain ⟨x, next, hnode, hfound, hrest⟩ := hseeks.node
          simp only [hw, hk, heap_of_nodeAt hnode, Option.bind_some, Option.map_some,
            Option.some.injEq] at hq
          subst hq
          split
          next hkey =>
            rw [hfit.wrap_next hstride.1 hlt]
            rw [hfound hkey, if_neg (by simp), Nat.add_zero, ← hlost] at htally
            refine ⟨h.setWorker hw (by simp) (by simp) (by simp) id id
              ⟨hidle, hstride.next, htally.symm⟩ rfl, left_setWorker_lt hw ?_⟩
            simp only [Worker.left]
            omega
          next hkey =>
            refine ⟨h.setWorker hw (by simp) (by simp) (by simp) id id
              ⟨hidle, hstride, hlost, hlt, k, x, next, hk, hnode, hrest hkey⟩ rfl,
              left_setWorker_lt hw ?_⟩
            simp only [Worker.left]
            omega
  | follow key lost b =>
      rw [hw] at hworker
      obtain ⟨hidle, hstride, hlost, hlt, k, x, next, hk, hnode, hseeks⟩ := hworker
      simp only [hw, heap_of_nodeAt hnode, Option.bind_some, Option.map_some,
        Option.some.injEq] at hq
      subst hq
      refine ⟨h.setWorker hw (by simp) (by simp) (by simp) id id
        ⟨hidle, hstride, hlost, hlt, k, hk, hseeks⟩ rfl, left_setWorker_lt hw ?_⟩
      simp only [Worker.left, walk_of_seeks_next hnode hseeks]
      omega

/-- The end of a loop of `main`. -/
theorem mainEnd_step (hi : n ≤ p.main.i) (hq : p.mainEnd = some q) :
    Tallied keys history q ∧ q.left keys < p.left keys := by
  have hall : ∀ i : Fin n, (i : Nat) < p.main.i := fun i => Nat.lt_of_lt_of_le i.isLt hi
  have hplaced := h.placed
  have hadds := h.adds
  unfold Program.mainEnd at hq
  split at hq
  next hloop =>
    cases hq
    refine ⟨h.setMain trivial fun i => ?_, left_lt_of_main ?_ fun _ => Nat.le_refl _⟩
    · simpa [Main.Places, hloop, hall i] using hplaced i
    · simp only [Program.setMain, Main.left, hloop]
      omega
  next hloop =>
    cases hq
    refine ⟨h.setMain trivial fun i => ?_, left_lt_of_main ?_ fun _ => Nat.le_refl _⟩
    · simp only [Main.Places, hloop] at hplaced
      simpa [Main.Places] using (hplaced i).2 (hall i)
    · simp only [Program.setMain, Main.left, hloop]
      omega
  next hloop =>
    cases hq
    refine ⟨h.setMain (by simp [Main.Adds]) fun i => ?_,
      left_lt_of_main ?_ fun _ => Nat.le_refl _⟩
    · simpa [Main.Places, hloop, hall i] using hplaced i
    · simp only [Program.setMain, Main.left, hloop]
      omega
  next hloop =>
    cases hq
    refine ⟨h.setMain ?_ fun i => ?_, left_lt_of_main ?_ fun _ => Nat.le_refl _⟩
    · simpa [Main.Adds, hloop, hall] using hadds
    · simp only [Main.Places, hloop] at hplaced
      exact (hplaced i).2 (hall i)
    · simp only [Program.setMain, Main.left, hloop]
      omega
  next => cases hq

/-- `main` creates or joins thread `i`. -/
theorem mainBody_step (hfit : ThreadsFit keys n) {i : Fin n} (hi : p.main.i = i)
    (hq : p.mainBody i = some q) : Tallied keys history q ∧ q.left keys < p.left keys := by
  have hplaced := h.placed
  have hworker := h.workers i
  unfold Program.mainBody at hq
  split at hq
  next hloop =>
    cases hq
    simp only [Main.Places, hloop] at hplaced
    have habsent : p.worker i = .absent := by simpa [hi] using hplaced i
    rw [habsent] at hworker
    constructor
    · rw [hfit.wrap_first]
      refine h.update (by simp [Main.Adds, hloop]) (fun j => ?_)
        ⟨hworker, onStride_first i⟩ ?_
      · by_cases hji : j = i
        · simp [Main.Places, hloop, hi, hji, Worker.Putting]
        · simpa [Main.Places, hloop, hji, lt_next_iff hi hji] using hplaced j
      · rw [habsent]
        exact issued_first
    · apply left_create_lt habsent
      · simp only [Main.left, hloop]
        omega
      · have hturns := turnsLeft_le keys (wrap i)
        simp only [Worker.left]
        omega
  next hloop =>
    split at hq
    next hw =>
      cases hq
      refine ⟨h.setMain (by simp [Main.Adds, hloop]) fun j => ?_,
        left_lt_of_main ?_ fun _ => Nat.le_refl _⟩
      · have hj := hplaced j
        simp only [Main.Places, hloop] at hj ⊢
        refine ⟨hj.1, fun hlt => ?_⟩
        by_cases hji : j = i
        · rw [hji, hw]
        · exact hj.2 ((lt_next_iff hi hji).mp hlt)
      · simp only [Program.setMain, Main.left, hloop]
        omega
    next => cases hq
  next hloop =>
    cases hq
    simp only [Main.Places, hloop] at hplaced
    have hdone : p.worker i = .putDone := by simpa [hi] using hplaced i
    rw [hdone] at hworker
    constructor
    · rw [hfit.wrap_first]
      refine h.update (by simp [Main.Adds, hloop]) (fun j => ?_)
        ⟨hworker, onStride_first i, (tally_first p.memory i).symm⟩ ?_
      · by_cases hji : j = i
        · simp [Main.Places, hloop, hi, hji, Worker.Getting]
        · simpa [Main.Places, hloop, hji, lt_next_iff hi hji] using hplaced j
      · rw [hdone]
        rfl
    · apply left_create_lt hdone
      · simp only [Main.left, hloop]
        omega
      · exact Nat.succ_le_succ (getTurn_mul_le keys (turnsLeft_le keys (wrap i)))
  next hloop =>
    split at hq
    next lost hw =>
      cases hq
      rw [hw] at hworker
      have hadds := h.adds
      simp only [Main.Adds, hloop] at hadds
      refine ⟨h.setMain ?_ fun j => ?_, left_lt_of_main ?_ fun _ => Nat.le_refl _⟩
      · -- the thread joined adds its own share
        have hsplit : ∀ j : Fin n, (if (j : Nat) < p.main.i + 1 then
            tally keys p.memory j keys.length else 0) =
              (if (j : Nat) < p.main.i then tally keys p.memory j keys.length else 0) +
                if j = i then lost else 0 := by
          intro j
          by_cases hji : j = i
          · subst hji
            simp [hi, hworker.2]
          · simp [hji, lt_next_iff hi hji]
        simp only [Main.Adds, hsplit, Finset.sum_add_distrib, ← hadds, sum_one_share]
      · have hj := hplaced j
        simp only [Main.Places, hloop] at hj ⊢
        refine ⟨hj.1, fun hlt => ?_⟩
        by_cases hji : j = i
        · exact ⟨lost, by rw [hji, hw]⟩
        · exact hj.2 ((lt_next_iff hi hji).mp hlt)
      · simp only [Program.setMain, Main.left, hloop]
        omega
    next => cases hq
  next => cases hq

/-- Every step keeps the invariant, and leaves less to do. -/
theorem step (hfit : ThreadsFit keys n) {a : ProgramAction n}
    (hstep : p.step noLocks keys a = some (q, events)) :
    Tallied keys (history ++ events) q ∧ q.left keys < p.left keys := by
  cases a with
  | main =>
      obtain ⟨q', hq, heq⟩ := Option.map_eq_some_iff.mp hstep
      cases heq
      rw [List.append_nil]
      unfold Program.mainStep at hq
      split at hq
      next hi => exact h.mainBody_step hfit rfl hq
      next hi => exact h.mainEnd_step (Nat.le_of_not_lt hi) hq
  | worker i =>
      obtain ⟨q', hq, heq⟩ := Option.map_eq_some_iff.mp hstep
      cases heq
      rw [List.append_nil]
      exact h.worker_step hfit hq
  | memory a =>
      obtain ⟨r, hr, heq⟩ := Option.map_eq_some_iff.mp hstep
      cases heq
      exact h.memory_step (step_racyMove hr)

/-- A thread that has not come to its end can go on. -/
theorem worker_unblocked (i : Fin n) (habsent : p.worker i ≠ .absent)
    (hdone : p.worker i ≠ .putDone) (hreturned : ∀ lost, p.worker i ≠ .returned lost) :
    ∃ a, (p.step noLocks keys a).isSome := by
  have hstep : (p.workerStep keys i).isSome → ∃ a, (p.step noLocks keys a).isSome :=
    fun hsome => ⟨.worker i, by simpa [Program.step] using hsome⟩
  have hworker := h.workers i
  cases hw : p.worker i with
  | absent => exact absurd hw habsent
  | putDone => exact absurd hw hdone
  | returned lost => exact absurd hw (hreturned lost)
  | put key =>
      rw [hw] at hworker
      apply hstep
      by_cases hlt : key < keys.length
      · obtain ⟨k, hk⟩ := keyAt_of_lt hworker.2.1 hlt
        simp [Program.workerStep, hw, hlt, hk]
      · simp [Program.workerStep, hw, hlt]
  | inserting key =>
      by_cases hidle : p.memory.thread i = ⟨none, []⟩
      · exact hstep (by simp [Program.workerStep, hw, hidle])
      · obtain ⟨a, ha⟩ := h.kept.exists_step h.fresh h.lockless hidle
        exact ⟨.memory a, by simpa [Program.step] using ha⟩
  | get key lost =>
      rw [hw] at hworker
      apply hstep
      by_cases hlt : key < keys.length
      · obtain ⟨k, hk⟩ := keyAt_of_lt hworker.2.1.1 hlt
        simp [Program.workerStep, hw, hlt, hk]
      · simp [Program.workerStep, hw, hlt]
  | probe key lost b =>
      rw [hw] at hworker
      obtain ⟨-, -, -, -, k, hk, hseeks⟩ := hworker
      apply hstep
      cases b with
      | none => simp [Program.workerStep, hw]
      | some a =>
          obtain ⟨x, next, hnode, -, -⟩ := hseeks.node
          simp [Program.workerStep, hw, hk, heap_of_nodeAt hnode]
  | follow key lost b =>
      rw [hw] at hworker
      obtain ⟨-, -, -, -, k, x, next, -, hnode, -⟩ := hworker
      exact hstep (by simp [Program.workerStep, hw, heap_of_nodeAt hnode])

theorem unblocked (hdone : p.main.loop ≠ .done) : ∃ a, (p.step noLocks keys a).isSome := by
  have hmain : p.mainStep.isSome → ∃ a, (p.step noLocks keys a).isSome :=
    fun hsome => ⟨.main, by simpa [Program.step] using hsome⟩
  by_cases hi : p.main.i < n
  · have hplaced := h.placed ⟨p.main.i, hi⟩
    cases hloop : p.main.loop with
    | createPut => exact hmain (by simp [Program.mainStep, Program.mainBody, hi, hloop])
    | createGet => exact hmain (by simp [Program.mainStep, Program.mainBody, hi, hloop])
    | joinPut =>
        simp only [Main.Places, hloop] at hplaced
        by_cases hw : p.worker ⟨p.main.i, hi⟩ = .putDone
        · exact hmain (by simp [Program.mainStep, Program.mainBody, hi, hloop, hw])
        · refine h.worker_unblocked ⟨p.main.i, hi⟩ ?_ hw ?_
          · intro heq
            simp [heq, Worker.Putting] at hplaced
          · intro lost heq
            simp [heq, Worker.Putting] at hplaced
    | joinGet =>
        simp only [Main.Places, hloop] at hplaced
        by_cases hw : ∃ lost, p.worker ⟨p.main.i, hi⟩ = .returned lost
        · obtain ⟨lost, hw⟩ := hw
          exact hmain (by simp [Program.mainStep, Program.mainBody, hi, hloop, hw])
        · refine h.worker_unblocked ⟨p.main.i, hi⟩ ?_ ?_ fun lost heq => hw ⟨lost, heq⟩
          · intro heq
            simp [heq, Worker.Getting] at hplaced
          · intro heq
            simp [heq, Worker.Getting] at hplaced
    | done => exact absurd hloop hdone
  · apply hmain
    cases hloop : p.main.loop with
    | done => exact absurd hloop hdone
    | _ => simp [Program.mainStep, Program.mainEnd, hi, hloop]

end Tallied

/-! ## Every run -/

theorem tallied_of_reach (hfit : ThreadsFit keys n)
    (h : Program.Reachable noLocks keys history p) : Tallied keys history p :=
  h.invariant tallied_start fun _ _ _ _ _ hprior _ hstep => (hprior.step hfit hstep).1

/-- What `parallel_hashtable.c` does in every run, however many keys are lost. -/
structure CountsLosses (keys : List Nat) (n : Nat) : Prop where
  /-- A `get_phase` thread reports the keys of its share that the table does not have. -/
  returned : ∀ (history : List (Inserted (Fin n))) p, Program.Reachable noLocks keys history p →
    ∀ i lost, p.worker i = .returned lost → lost = tally keys p.memory i keys.length
  /-- The total is the number of keys that the table does not have. -/
  finished : ∀ (history : List (Inserted (Fin n))) p, Program.Reachable noLocks keys history p →
    p.main.loop = .done → p.main.totalLost = keys.countP (missing keys p.memory)
  /-- Before the end of `main` some step can be taken. -/
  unblocked : ∀ (history : List (Inserted (Fin n))) p, Program.Reachable noLocks keys history p →
    p.main.loop ≠ .done → ∃ a, (p.step noLocks keys a).isSome
  /-- No run goes on for ever. -/
  bounded : ∃ bound, ∀ actions, (run (fun p : Program n Empty => p.step noLocks keys)
    Program.start actions).isSome → actions.length ≤ bound

/-- Whatever the schedule and whatever is lost, the process comes to its end and
counts its losses right. -/
theorem racy_counts_losses (keys : List Nat) (n : Nat) (hfit : ThreadsFit keys n) :
    CountsLosses keys n where
  returned history p hreach i lost hw := by
    have hworker := (tallied_of_reach hfit hreach).workers i
    rw [hw] at hworker
    exact hworker.2
  finished history p hreach hdone := by
    have hadds := (tallied_of_reach hfit hreach).adds
    simp only [Main.Adds, hdone] at hadds
    exact hadds.trans (sum_issued hfit.pos keys (missing keys p.memory))
  unblocked history p hreach hdone := (tallied_of_reach hfit hreach).unblocked hdone
  bounded := by
    refine ⟨(Program.start : Program n Empty).left keys, fun actions hrun => ?_⟩
    obtain ⟨⟨q, events⟩, hq⟩ := Option.isSome_iff_exists.mp hrun
    refine Nat.le_of_add_right_le (length_add_le_of_run
      (fun p => ∃ history, Tallied keys history p) (Program.left keys) ?_
      ⟨[], tallied_start⟩ hq)
    rintro p a q events ⟨history, htallied⟩ hstep
    obtain ⟨hkept, hleft⟩ := htallied.step hfit hstep
    exact ⟨⟨_, hkept⟩, hleft⟩

/-- Two threads insert 3 and 8 into one bucket, both from the empty chain; then
they look both up. -/
def losingRun : List (ProgramAction 2) :=
  [.main, .main, .main, .worker 0, .worker 1, .memory (.malloc 0 0), .memory (.malloc 1 1)] ++
    (List.replicate 5 [.memory (.run 0), .memory (.run 1)]).flatten ++
    [.worker 0, .worker 1, .worker 0, .worker 1, .main, .main, .main, .main, .main, .main] ++
    [.worker 0, .worker 0, .worker 0, .worker 0, .worker 0, .worker 1, .worker 1, .worker 1,
      .main, .main, .main]

theorem losingRun_isSome : (run (fun p : Program 2 Empty => p.step noLocks [3, 8])
    Program.start losingRun).isSome := by
  decide +kernel

theorem racy_counts_losses_losingRun : ∃ history, ∃ p : Program 2 Empty,
    Program.Reachable noLocks [3, 8] history p ∧ p.main.loop = .done ∧
      p.main.totalLost = 1 ∧ p.main.totalLost = [3, 8].countP (missing [3, 8] p.memory) := by
  have hreach : Program.Reachable noLocks [3, 8] _ _ :=
    Reach.of_isSome losingRun (admitted_anyStep _ _) losingRun_isSome
  have hfit : ThreadsFit [3, 8] 2 := ⟨by decide, by decide, by decide⟩
  have hdone : ((run (fun p : Program 2 Empty => p.step noLocks [3, 8]) Program.start
      losingRun).get losingRun_isSome).1.main.loop = .done := by decide +kernel
  exact ⟨_, _, hreach, hdone, by decide +kernel,
    (racy_counts_losses [3, 8] 2 hfit).finished _ _ hreach hdone⟩

end OsCourse.HashTable
