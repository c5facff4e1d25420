import OsCourse.HashTable.Linearization
import OsCourse.HashTable.Strides

/-! # No key is lost

An invariant of the whole process: where each thread can be while `main` is in
one of its loops, what `put_phase` threads have inserted so far, and that the
chain a `get_phase` thread is walking still has the key ahead.
-/

namespace OsCourse.HashTable

open LinkedList MachineInt Transition

variable {n : Nat} {Lock : Type*} [DecidableEq Lock] {lockOf : Bucket → Lock} {keys : List Nat}
  {p q : Program n Lock} {history events : List (Inserted (Fin n))}

/-- At least one thread, and no `int` overflows in the loops over the keys. -/
structure ThreadsFit (keys : List Nat) (n : Nat) : Prop where
  pos : 1 ≤ n
  int : (n : Int) ≤ intMax
  sum : ∀ key : Nat, key < keys.length → (key + n : Int) ≤ intMax

theorem ThreadsFit.wrap_first (hfit : ThreadsFit keys n) (i : Fin n) : wrap i = i := by
  apply wrap_of_inRange
  have hlt : ((i : Nat) : Int) ≤ n := by omega
  exact inRange_of_nonneg (Int.natCast_nonneg _) hlt hfit.int

theorem ThreadsFit.wrap_next (hfit : ThreadsFit keys n) {key : Int} (hkey : 0 ≤ key)
    (hlt : key < keys.length) : wrap (key + n) = key + n := by
  apply wrap_of_inRange
  have hsum := hfit.sum key.toNat (by omega)
  rw [Int.toNat_of_nonneg hkey] at hsum
  exact inRange_of_nonneg (by omega) (Int.le_refl _) hsum

/-! ## Steps of the process -/

/-- What a step of the process does. -/
inductive Turn (lockOf : Bucket → Lock) (keys : List Nat) (p : Program n Lock) :
    Program n Lock → List (Inserted (Fin n)) → Prop
  | createPut {i : Fin n} (hi : p.main.i = i) (hloop : p.main.loop = .createPut) :
      Turn lockOf keys p
        ((p.setWorker i (.put (wrap i))).setMain { p.main with i := p.main.i + 1 }) []
  | joinPut {i : Fin n} (hi : p.main.i = i) (hloop : p.main.loop = .joinPut)
      (hw : p.worker i = .putDone) :
      Turn lockOf keys p (p.setMain { p.main with i := p.main.i + 1 }) []
  | createGet {i : Fin n} (hi : p.main.i = i) (hloop : p.main.loop = .createGet) :
      Turn lockOf keys p
        ((p.setWorker i (.get (wrap i) 0)).setMain { p.main with i := p.main.i + 1 }) []
  | joinGet {i : Fin n} {lost : Nat} (hi : p.main.i = i) (hloop : p.main.loop = .joinGet)
      (hw : p.worker i = .returned lost) :
      Turn lockOf keys p (p.setMain ⟨.joinGet, p.main.i + 1, p.main.totalLost + lost⟩) []
  | mainEnd {q : Program n Lock} (hi : n ≤ p.main.i) (hq : p.mainEnd = some q) :
      Turn lockOf keys p q []
  | putCall {i : Fin n} {key : Int} {k : Nat} (hw : p.worker i = .put key)
      (hlt : key < keys.length) (hk : keyAt keys key = some k) :
      Turn lockOf keys p
        { p.setWorker i (.inserting key) with memory := p.memory.giveCall i (k, wrap i) } []
  | putExit {i : Fin n} {key : Int} (hw : p.worker i = .put key) (hge : keys.length ≤ key) :
      Turn lockOf keys p (p.setWorker i .putDone) []
  | putNext {i : Fin n} {key : Int} (hw : p.worker i = .inserting key)
      (hidle : p.memory.thread i = ⟨none, []⟩) :
      Turn lockOf keys p (p.setWorker i (.put (wrap (key + n)))) []
  | getCall {i : Fin n} {key : Int} {lost k : Nat} (hw : p.worker i = .get key lost)
      (hlt : key < keys.length) (hk : keyAt keys key = some k) :
      Turn lockOf keys p
        (p.setWorker i (.probe key lost (p.memory.table (bucketOf k)))) []
  | getExit {i : Fin n} {key : Int} {lost : Nat} (hw : p.worker i = .get key lost)
      (hge : keys.length ≤ key) :
      Turn lockOf keys p (p.setWorker i (.returned lost)) []
  | missed {i : Fin n} {key : Int} {lost : Nat} (hw : p.worker i = .probe key lost none) :
      Turn lockOf keys p (p.setWorker i (.get (wrap (key + n)) (lost + 1))) []
  | found {i : Fin n} {key : Int} {lost : Nat} {b : Addr} {k : Nat} {e : BucketEntry}
      (hw : p.worker i = .probe key lost (some b)) (hk : keyAt keys key = some k)
      (he : p.memory.heap b = some e) (hmatch : e.key = some k) :
      Turn lockOf keys p (p.setWorker i (.get (wrap (key + n)) lost)) []
  | other {i : Fin n} {key : Int} {lost : Nat} {b : Addr} {k k' : Nat} {e : BucketEntry}
      (hw : p.worker i = .probe key lost (some b)) (hk : keyAt keys key = some k)
      (he : p.memory.heap b = some e) (hkey : e.key = some k') (hdiffer : k' ≠ k) :
      Turn lockOf keys p (p.setWorker i (.follow key lost b)) []
  | follow {i : Fin n} {key : Int} {lost : Nat} {b : Addr} {e : BucketEntry}
      {next : Option Addr} (hw : p.worker i = .follow key lost b)
      (he : p.memory.heap b = some e) (hnext : e.next = some next) :
      Turn lockOf keys p (p.setWorker i (.probe key lost next)) []
  | memory {s : State (Fin n) Lock} {events : List (Inserted (Fin n))}
      (hmove : Move lockOf p.memory s events) :
      Turn lockOf keys p { p with memory := s } events

theorem turn_of_mainStep (h : p.mainStep = some q) : Turn lockOf keys p q [] := by
  unfold Program.mainStep at h
  split at h
  next hi =>
    unfold Program.mainBody at h
    split at h
    next hloop =>
      cases h
      exact .createPut rfl hloop
    next hloop =>
      split at h
      next hw =>
        cases h
        exact .joinPut rfl hloop hw
      next => cases h
    next hloop =>
      cases h
      exact .createGet rfl hloop
    next hloop =>
      split at h
      next lost hw =>
        cases h
        exact .joinGet rfl hloop hw
      next => cases h
    next => cases h
  next hi => exact .mainEnd (Nat.le_of_not_lt hi) h

theorem turn_of_workerStep {i : Fin n} (h : p.workerStep keys i = some q) :
    Turn lockOf keys p q [] := by
  unfold Program.workerStep at h
  split at h
  next => cases h
  next => cases h
  next => cases h
  next key hw =>
    split at h
    next hlt =>
      obtain ⟨k, hk, rfl⟩ := Option.map_eq_some_iff.mp h
      exact .putCall hw hlt hk
    next hge =>
      cases h
      exact .putExit hw (Int.not_lt.mp hge)
  next key hw =>
    split at h
    next hidle =>
      cases h
      exact .putNext hw hidle
    next => cases h
  next key lost hw =>
    split at h
    next hlt =>
      obtain ⟨k, hk, rfl⟩ := Option.map_eq_some_iff.mp h
      exact .getCall hw hlt hk
    next hge =>
      cases h
      exact .getExit hw (Int.not_lt.mp hge)
  next key lost hw =>
    cases h
    exact .missed hw
  next key lost b hw =>
    obtain ⟨k, hk, h⟩ := Option.bind_eq_some_iff.mp h
    obtain ⟨e, he, h⟩ := Option.bind_eq_some_iff.mp h
    obtain ⟨k', hkey, rfl⟩ := Option.map_eq_some_iff.mp h
    split
    next heq =>
      subst heq
      exact .found hw hk he hkey
    next hdiffer => exact .other hw hk he hkey hdiffer
  next key lost b hw =>
    obtain ⟨e, he, h⟩ := Option.bind_eq_some_iff.mp h
    obtain ⟨next, hnext, rfl⟩ := Option.map_eq_some_iff.mp h
    exact .follow hw he hnext

theorem step_turn {a : ProgramAction n}
    (h : p.step (fun b => some (lockOf b)) keys a = some (q, events)) :
    Turn lockOf keys p q events := by
  cases a with
  | main =>
      obtain ⟨q', hq, heq⟩ := Option.map_eq_some_iff.mp h
      cases heq
      exact turn_of_mainStep hq
  | worker i =>
      obtain ⟨q', hq, heq⟩ := Option.map_eq_some_iff.mp h
      cases heq
      exact turn_of_workerStep hq
  | memory a =>
      obtain ⟨r, hr, heq⟩ := Option.map_eq_some_iff.mp h
      cases heq
      exact .memory (step_move hr)

/-! ## The invariant -/

/-- A thread of `put_phase`. -/
def Worker.Putting : Worker → Prop
  | .put _ | .inserting _ | .putDone => True
  | _ => False

/-- A thread of `get_phase`. -/
def Worker.Getting : Worker → Prop
  | .get _ _ | .probe _ _ _ | .follow _ _ _ | .returned _ => True
  | _ => False

/-- Where thread `i` can be, as seen from `main`. -/
def Main.Allows (m : Main) (i : Nat) (w : Worker) : Prop :=
  match m.loop with
  | .createPut => if i < m.i then w.Putting else w = .absent
  | .joinPut => w.Putting ∧ (i < m.i → w = .putDone)
  | .createGet => if i < m.i then w.Getting else w = .putDone
  | .joinGet => w.Getting ∧ (i < m.i → w = .returned 0)
  | .done => w = .returned 0

/-- `main` has passed the barrier between the phases. -/
def Main.PutsJoined (m : Main) : Prop := m.loop ≠ .createPut ∧ m.loop ≠ .joinPut

/-- The calls of `insert` that a thread has made, the present one included. -/
def issuedBy (keys : List Nat) (i : Fin n) : Worker → List (Nat × Int)
  | .absent => []
  | .put key => issued keys i key
  | .inserting key => issued keys i (key + n)
  | _ => issued keys i keys.length

/-- The chain from the pointer on has an entry with the key. -/
def Ahead (keys : List Nat) (heap : Addr → Option BucketEntry) (k : Nat) (ptr : Option Addr) :
    Prop :=
  ∃ cells, Linked (nodeAt heap) ptr cells ∧ cells.length ≤ keys.length ∧
    ∃ cell ∈ cells, cell.2.1 = k

/-- What holds of a thread by where it is. -/
def WorkerRight (keys : List Nat) (s : State (Fin n) Lock) (i : Fin n) : Worker → Prop
  | .absent | .putDone => s.thread i = ⟨none, []⟩
  | .put key => s.thread i = ⟨none, []⟩ ∧ OnStride i key
  | .inserting key => OnStride i key ∧ key < keys.length
  | .get key lost => s.thread i = ⟨none, []⟩ ∧ lost = 0 ∧ OnStride i key
  | .probe key lost b =>
      s.thread i = ⟨none, []⟩ ∧ lost = 0 ∧ OnStride i key ∧ key < keys.length ∧
        ∃ k, keyAt keys key = some k ∧ Ahead keys s.heap k b
  | .follow key lost b =>
      s.thread i = ⟨none, []⟩ ∧ lost = 0 ∧ OnStride i key ∧ key < keys.length ∧
        ∃ k x next, keyAt keys key = some k ∧ nodeAt s.heap b = some (x, next) ∧
          Ahead keys s.heap k next
  | .returned lost => s.thread i = ⟨none, []⟩ ∧ lost = 0

structure Right (lockOf : Bucket → Lock) (keys : List Nat) (history : List (Inserted (Fin n)))
    (p : Program n Lock) : Prop where
  total : p.main.totalLost = 0
  placed : ∀ i : Fin n, p.main.Allows i (p.worker i)
  workers : ∀ i, WorkerRight keys p.memory i (p.worker i)
  sound : Sound lockOf (fun i => issuedBy keys i (p.worker i)) history p.memory

omit [DecidableEq Lock] in
theorem right_start : Right lockOf keys [] (Program.start : Program n Lock) where
  total := rfl
  placed := fun _ => rfl
  workers := fun _ => rfl
  sound := sound_start

/-! ## Phases -/

/-- A thread goes on in its phase. -/
theorem Main.Allows.goOn {m : Main} {i : Nat} {w w' : Worker} (h : m.Allows i w)
    (hdone : w ≠ .putDone) (hreturned : ∀ lost, w ≠ .returned lost) (habsent : w ≠ .absent)
    (hput : w.Putting → w'.Putting) (hget : w.Getting → w'.Getting) : m.Allows i w' := by
  unfold Main.Allows at h ⊢
  split at h
  next =>
    split at h
    next hi => simpa [hi] using hput h
    next => exact absurd h habsent
  next => exact ⟨hput h.1, fun hi => absurd (h.2 hi) hdone⟩
  next =>
    split at h
    next hi => simpa [hi] using hget h
    next => exact absurd h hdone
  next => exact ⟨hget h.1, fun hi => absurd (h.2 hi) (hreturned 0)⟩
  next => exact absurd h (hreturned 0)

theorem Main.Allows.putsJoined {m : Main} {i : Nat} {w : Worker} (h : m.Allows i w)
    (hw : w.Getting) : m.PutsJoined := by
  constructor <;> intro hloop <;> simp only [Main.Allows, hloop] at h
  · split at h
    next => cases w <;> simp_all [Worker.Putting, Worker.Getting]
    next => simp [h, Worker.Getting] at hw
  · cases w <;> simp_all [Worker.Putting, Worker.Getting]

theorem Main.PutsJoined.over {m : Main} (hm : m.PutsJoined) {i : Nat} {w : Worker}
    (h : m.Allows i w) : w = .putDone ∨ w.Getting := by
  unfold Main.Allows at h
  split at h
  next hloop => exact absurd hloop hm.1
  next hloop => exact absurd hloop hm.2
  next =>
    split at h
    next => exact .inr h
    next => exact .inl h
  next => exact .inr h.1
  next =>
    subst h
    exact .inr trivial

/-- A thread that has left `put_phase` has made all its calls. -/
theorem issuedBy_over {i : Fin n} {w : Worker} (h : w = .putDone ∨ w.Getting) :
    issuedBy keys i w = issued keys i keys.length := by
  cases w <;> simp_all [Worker.Getting, issuedBy]

omit [DecidableEq Lock] in
theorem WorkerRight.idle {s : State (Fin n) Lock} {i : Fin n} {w : Worker}
    (h : WorkerRight keys s i w) (hw : ∀ key, w ≠ .inserting key) : s.thread i = ⟨none, []⟩ := by
  cases w with
  | absent => exact h
  | put key => exact h.1
  | inserting key => exact absurd rfl (hw key)
  | putDone => exact h
  | get key lost => exact h.1
  | probe key lost b => exact h.1
  | follow key lost b => exact h.1
  | returned lost => exact h.1

omit [DecidableEq Lock] in
theorem WorkerRight.congr {s s' : State (Fin n) Lock} {i : Fin n} {w : Worker}
    (h : WorkerRight keys s i w) (hthread : s'.thread i = s.thread i)
    (hheap : w.Getting → s'.heap = s.heap) : WorkerRight keys s' i w := by
  cases w with
  | absent => exact hthread.trans h
  | put key => exact ⟨hthread.trans h.1, h.2⟩
  | inserting key => exact h
  | putDone => exact hthread.trans h
  | get key lost => exact ⟨hthread.trans h.1, h.2⟩
  | probe key lost b =>
      unfold WorkerRight at h ⊢
      rwa [hthread, hheap trivial]
  | follow key lost b =>
      unfold WorkerRight at h ⊢
      rwa [hthread, hheap trivial]
  | returned lost => exact ⟨hthread.trans h.1, h.2⟩

omit [DecidableEq Lock] in
/-- Past the barrier the chains have exactly the entries of the keys. -/
theorem Right.chains (h : Right lockOf keys history p) (hn : 1 ≤ n) (hjoined : p.main.PutsJoined)
    (b : Bucket) : ((cellsOf history b).map Prod.snd).Perm (stored keys n b) := by
  apply cellsOf_perm hn
  intro i
  have hover := hjoined.over (h.placed i)
  have hidle : p.memory.thread i = ⟨none, []⟩ := by
    refine (h.workers i).idle fun key heq => ?_
    simp [heq, Worker.Getting] at hover
  have horder := h.sound.order i
  rwa [hidle, Thread.pending, List.append_nil, issuedBy_over hover] at horder

omit [DecidableEq Lock] in
/-- Past the barrier every key is in its chain. -/
theorem Right.ahead (h : Right lockOf keys history p) (hn : 1 ≤ n) (hjoined : p.main.PutsJoined)
    {key : Int} {k : Nat} (hk : keyAt keys key = some k) :
    Ahead keys p.memory.heap k (p.memory.table (bucketOf k)) := by
  have hperm := h.chains hn hjoined (bucketOf k)
  refine ⟨_, h.sound.chains (bucketOf k), ?_, ?_⟩
  · have hlength := hperm.length_eq
    have hfilter := List.length_filter_le (fun x => bucketOf x.1 = bucketOf k) keys.zipIdx
    simp only [stored, List.length_map, List.length_zipIdx] at hlength hfilter
    omega
  · obtain ⟨j, rfl, hj⟩ := keyAt_eq_some hk
    have hmem : (k, ((j % n : Nat) : Int)) ∈ stored keys n (bucketOf k) := by
      refine List.mem_map.mpr ⟨(k, j), List.mem_filter.mpr ⟨?_, by simp⟩, rfl⟩
      exact List.mk_mem_zipIdx_iff_getElem?.mpr hj
    obtain ⟨cell, hcell, heq⟩ := List.mem_map.mp (hperm.mem_iff.mpr hmem)
    exact ⟨cell, hcell, congrArg Prod.fst heq⟩

/-! ## Steps keep the invariant -/

omit [DecidableEq Lock] in
/-- A thread moves, and `main` with it. -/
theorem Right.update (h : Right lockOf keys history p) {m : Main} {i : Fin n} {w : Worker}
    (htotal : m.totalLost = 0)
    (hplaced : ∀ j : Fin n, m.Allows j (if j = i then w else p.worker j))
    (hright : WorkerRight keys p.memory i w)
    (hissued : issuedBy keys i w = issuedBy keys i (p.worker i)) :
    Right lockOf keys history ((p.setWorker i w).setMain m) := by
  have hworker : ∀ j, ((p.setWorker i w).setMain m).worker j = if j = i then w else p.worker j :=
    fun j => Function.update_apply ..
  refine ⟨htotal, fun j => ?_, fun j => ?_, ?_⟩
  · rw [hworker]
    exact hplaced j
  · rw [hworker]
    split
    next heq =>
      subst heq
      exact hright
    next => exact h.workers j
  · have hcalls : (fun j => issuedBy keys j (((p.setWorker i w).setMain m).worker j)) =
        fun j => issuedBy keys j (p.worker j) := by
      funext j
      rw [hworker]
      split
      next heq =>
        subst heq
        exact hissued
      next => rfl
    rw [hcalls]
    exact h.sound

omit [DecidableEq Lock] in
/-- A thread goes on in its phase without a step of `insert`. -/
theorem Right.setWorker (h : Right lockOf keys history p) {i : Fin n} {w w' : Worker}
    (hw : p.worker i = w) (hdone : w ≠ .putDone) (hreturned : ∀ lost, w ≠ .returned lost)
    (habsent : w ≠ .absent) (hput : w.Putting → w'.Putting) (hget : w.Getting → w'.Getting)
    (hright : WorkerRight keys p.memory i w')
    (hissued : issuedBy keys i w' = issuedBy keys i w) :
    Right lockOf keys history (p.setWorker i w') := by
  refine h.update (m := p.main) h.total (fun j => ?_) hright (hw ▸ hissued)
  split
  next heq =>
    subst heq
    exact (hw ▸ h.placed j).goOn hdone hreturned habsent hput hget
  next => exact h.placed j

omit [DecidableEq Lock] in
theorem Right.setMain (h : Right lockOf keys history p) {m : Main} (htotal : m.totalLost = 0)
    (hplaced : ∀ i : Fin n, m.Allows i (p.worker i)) :
    Right lockOf keys history (p.setMain m) :=
  ⟨htotal, hplaced, h.workers, h.sound⟩

omit [DecidableEq Lock] in
theorem Right.mainEnd (h : Right lockOf keys history p) (hi : n ≤ p.main.i)
    (hq : p.mainEnd = some q) : Right lockOf keys history q := by
  have hall : ∀ i : Fin n, (i : Nat) < p.main.i := fun i => Nat.lt_of_lt_of_le i.isLt hi
  have hplaced := h.placed
  unfold Program.mainEnd at hq
  split at hq
  next hloop =>
    cases hq
    refine h.setMain h.total fun i => ?_
    simpa [Main.Allows, hloop, hall i] using hplaced i
  next hloop =>
    cases hq
    refine h.setMain h.total fun i => ?_
    simp only [Main.Allows, hloop] at hplaced
    simpa [Main.Allows] using (hplaced i).2 (hall i)
  next hloop =>
    cases hq
    refine h.setMain rfl fun i => ?_
    simpa [Main.Allows, hloop, hall i] using hplaced i
  next hloop =>
    cases hq
    refine h.setMain h.total fun i => ?_
    simp only [Main.Allows, hloop] at hplaced
    simpa [Main.Allows] using (hplaced i).2 (hall i)
  next => cases hq

/-- A step of `insert` is one of a `put_phase` thread, at a time when there is no
`get_phase` thread. -/
theorem Right.inserting (h : Right lockOf keys history p) {s : State (Fin n) Lock}
    (hmove : Move lockOf p.memory s events) :
    ∃ t key, p.worker t = .inserting key ∧ (s.thread t).left < (p.memory.thread t).left ∧
      (∀ u, u ≠ t → s.thread u = p.memory.thread u) ∧ ∀ u, ¬(p.worker u).Getting := by
  obtain ⟨t, hleft, hothers⟩ := hmove.left_lt
  obtain ⟨key, hw⟩ : ∃ key, p.worker t = .inserting key := by
    by_contra hnot
    have hidle := (h.workers t).idle fun key heq => hnot ⟨key, heq⟩
    simp [hidle, Thread.left] at hleft
  refine ⟨t, key, hw, hleft, hothers, fun u hget => ?_⟩
  have hover := ((h.placed u).putsJoined hget).over (h.placed t)
  simp [hw, Worker.Getting] at hover

theorem Right.memory (h : Right lockOf keys history p) {s : State (Fin n) Lock}
    (hmove : Move lockOf p.memory s events) :
    Right lockOf keys (history ++ events) { p with memory := s } := by
  obtain ⟨t, key, hw, -, hothers, hnone⟩ := h.inserting hmove
  refine ⟨h.total, h.placed, fun u => ?_, h.sound.step hmove⟩
  by_cases hut : u = t
  · subst hut
    have hright := h.workers u
    rw [hw] at hright
    exact hw ▸ hright
  · exact (h.workers u).congr (hothers u hut) fun hget => absurd hget (hnone u)

omit [DecidableEq Lock] in
theorem Right.putCall (h : Right lockOf keys history p) (hfit : ThreadsFit keys n) {i : Fin n}
    {key : Int} {k : Nat} (hw : p.worker i = .put key) (hlt : key < keys.length)
    (hk : keyAt keys key = some k) :
    Right lockOf keys history
      { p.setWorker i (.inserting key) with memory := p.memory.giveCall i (k, wrap i) } := by
  have hworker : ∀ j, (p.setWorker i (.inserting key)).worker j =
      if j = i then .inserting key else p.worker j := fun j => Function.update_apply ..
  obtain ⟨-, hstride⟩ : p.memory.thread i = ⟨none, []⟩ ∧ OnStride i key := by
    have hright := h.workers i
    rwa [hw] at hright
  refine ⟨h.total, fun j => ?_, fun j => ?_, ?_⟩
  · rw [hworker]
    split
    next heq =>
      subst heq
      exact (hw ▸ h.placed j).goOn (by simp) (by simp) (by simp) id id
    next => exact h.placed j
  · rw [hworker]
    split
    next heq =>
      subst heq
      exact ⟨hstride, hlt⟩
    next hji => exact (h.workers j).congr (Function.update_of_ne hji ..) fun _ => rfl
  · have hcalls : (fun j => issuedBy keys j ((p.setWorker i (.inserting key)).worker j)) =
        Function.update (fun j => issuedBy keys j (p.worker j)) i
          (issuedBy keys i (p.worker i) ++ [(k, wrap i)]) := by
      funext j
      rw [hworker, Function.update_apply]
      split
      next heq =>
        subst heq
        rw [hw, hfit.wrap_first]
        exact issued_next hstride hk
      next => rfl
    rw [hcalls]
    exact h.sound.giveCall i (k, wrap i)

/-- The chain ahead is not at its end. -/
theorem not_ahead_none {heap : Addr → Option BucketEntry} {k : Nat} : ¬Ahead keys heap k none := by
  rintro ⟨cells, hlinked, -, cell, hcell, -⟩
  cases cells with
  | nil => cases hcell
  | cons head rest => cases hlinked.1

/-- At an entry with another key the key is still ahead. -/
theorem Ahead.next {heap : Addr → Option BucketEntry} {k k' : Nat} {b : Addr} {e : BucketEntry}
    (h : Ahead keys heap k (some b)) (he : heap b = some e) (hkey : e.key = some k')
    (hdiffer : k' ≠ k) : ∃ x next, nodeAt heap b = some (x, next) ∧ Ahead keys heap k next := by
  obtain ⟨cells, hlinked, hlength, cell, hcell, rfl⟩ := h
  cases cells with
  | nil => cases hcell
  | cons head rest =>
      obtain ⟨hptr, next, hnode, hrest⟩ := hlinked
      cases hptr
      refine ⟨head.2, next, hnode, rest, hrest, Nat.le_of_succ_le hlength, cell, ?_, rfl⟩
      rcases List.mem_cons.mp hcell with rfl | hmem
      · have hentry := heap_of_nodeAt hnode
        rw [he, Option.some.injEq] at hentry
        subst hentry
        exact absurd (Option.some.inj hkey).symm hdiffer
      · exact hmem

/-- One turn of a loop of `main` is about one thread. -/
theorem lt_next_iff {m : Nat} {i j : Fin n} (hi : m = i) (hji : j ≠ i) :
    (j : Nat) < m + 1 ↔ (j : Nat) < m := by
  have hne : (j : Nat) ≠ i := fun heq => hji (Fin.ext heq)
  omega

theorem Turn.right (h : Turn lockOf keys p q events) (hfit : ThreadsFit keys n)
    (hright : Right lockOf keys history p) : Right lockOf keys (history ++ events) q := by
  cases h with
  | memory hmove => exact hright.memory hmove
  | @createPut i hi hloop =>
      rw [List.append_nil, hfit.wrap_first]
      have hplaced := hright.placed
      simp only [Main.Allows, hloop] at hplaced
      have habsent : p.worker i = .absent := by simpa [hi] using hplaced i
      have hidle := hright.workers i
      rw [habsent] at hidle
      refine hright.update hright.total (fun j => ?_) ⟨hidle, onStride_first i⟩ ?_
      · by_cases hji : j = i
        · simp [Main.Allows, hloop, hi, hji, Worker.Putting]
        · simpa [Main.Allows, hloop, hji, lt_next_iff hi hji] using hplaced j
      · rw [habsent]
        exact issued_first
  | @joinPut i hi hloop hw =>
      rw [List.append_nil]
      refine hright.setMain hright.total fun j => ?_
      have hplaced := hright.placed j
      simp only [Main.Allows, hloop] at hplaced ⊢
      refine ⟨hplaced.1, fun hlt => ?_⟩
      by_cases hji : j = i
      · rw [hji, hw]
      · exact hplaced.2 ((lt_next_iff hi hji).mp hlt)
  | @createGet i hi hloop =>
      rw [List.append_nil, hfit.wrap_first]
      have hplaced := hright.placed
      simp only [Main.Allows, hloop] at hplaced
      have hdone : p.worker i = .putDone := by simpa [hi] using hplaced i
      have hidle := hright.workers i
      rw [hdone] at hidle
      refine hright.update hright.total (fun j => ?_) ⟨hidle, rfl, onStride_first i⟩ ?_
      · by_cases hji : j = i
        · simp [Main.Allows, hloop, hi, hji, Worker.Getting]
        · simpa [Main.Allows, hloop, hji, lt_next_iff hi hji] using hplaced j
      · rw [hdone]
        rfl
  | @joinGet i lost hi hloop hw =>
      rw [List.append_nil]
      obtain ⟨-, rfl⟩ : p.memory.thread i = ⟨none, []⟩ ∧ lost = 0 := by
        have hthis := hright.workers i
        rwa [hw] at hthis
      refine hright.setMain hright.total fun j => ?_
      have hplaced := hright.placed j
      simp only [Main.Allows, hloop] at hplaced ⊢
      refine ⟨hplaced.1, fun hlt => ?_⟩
      by_cases hji : j = i
      · rw [hji, hw]
      · exact hplaced.2 ((lt_next_iff hi hji).mp hlt)
  | mainEnd hi hq =>
      rw [List.append_nil]
      exact hright.mainEnd hi hq
  | @putCall i key k hw hlt hk =>
      rw [List.append_nil]
      exact hright.putCall hfit hw hlt hk
  | @putExit i key hw hge =>
      rw [List.append_nil]
      have hidle := (hright.workers i).idle (by simp [hw])
      exact hright.setWorker hw (by simp) (by simp) (by simp) id id hidle
        (issued_all hge).symm
  | @putNext i key hw hidle =>
      rw [List.append_nil]
      obtain ⟨hstride, hlt⟩ : OnStride i key ∧ key < keys.length := by
        have hthis := hright.workers i
        rwa [hw] at hthis
      rw [hfit.wrap_next hstride.1 hlt]
      exact hright.setWorker hw (by simp) (by simp) (by simp) id id ⟨hidle, hstride.next⟩ rfl
  | @getCall i key lost k hw hlt hk =>
      rw [List.append_nil]
      have hthis := hright.workers i
      rw [hw] at hthis
      have hjoined := (hright.placed i).putsJoined (hw ▸ trivial)
      refine hright.setWorker hw (by simp) (by simp) (by simp) id id ?_ rfl
      exact ⟨hthis.1, hthis.2.1, hthis.2.2, hlt, k, hk, hright.ahead hfit.pos hjoined hk⟩
  | @getExit i key lost hw hge =>
      rw [List.append_nil]
      have hthis := hright.workers i
      rw [hw] at hthis
      exact hright.setWorker hw (by simp) (by simp) (by simp) id id ⟨hthis.1, hthis.2.1⟩ rfl
  | @missed i key lost hw =>
      have hthis := hright.workers i
      rw [hw] at hthis
      obtain ⟨-, -, -, -, k, -, hahead⟩ := hthis
      exact absurd hahead not_ahead_none
  | @found i key lost b k e hw hk he hmatch =>
      rw [List.append_nil]
      have hthis := hright.workers i
      rw [hw] at hthis
      obtain ⟨hidle, hlost, hstride, hlt, -⟩ := hthis
      rw [hfit.wrap_next hstride.1 hlt]
      exact hright.setWorker hw (by simp) (by simp) (by simp) id id
        ⟨hidle, hlost, hstride.next⟩ rfl
  | @other i key lost b k k' e hw hk he hkey hdiffer =>
      rw [List.append_nil]
      have hthis := hright.workers i
      rw [hw] at hthis
      obtain ⟨hidle, hlost, hstride, hlt, k₀, hk₀, hahead⟩ := hthis
      cases hk.symm.trans hk₀
      obtain ⟨x, next, hnode, hnext⟩ := hahead.next he hkey hdiffer
      exact hright.setWorker hw (by simp) (by simp) (by simp) id id
        ⟨hidle, hlost, hstride, hlt, k, x, next, hk, hnode, hnext⟩ rfl
  | @follow i key lost b e next hw he hnext =>
      rw [List.append_nil]
      have hthis := hright.workers i
      rw [hw] at hthis
      obtain ⟨hidle, hlost, hstride, hlt, k, x, next', hk, hnode, hahead⟩ := hthis
      have hentry := heap_of_nodeAt hnode
      rw [he, Option.some.injEq] at hentry
      subst hentry
      cases hnext
      exact hright.setWorker hw (by simp) (by simp) (by simp) id id
        ⟨hidle, hlost, hstride, hlt, k, hk, hahead⟩ rfl

/-- The configurations of the process with these locks and keys. -/
def Program.Reachable (lockOf : Bucket → Option Lock) (keys : List Nat) :
    List (Inserted (Fin n)) → Program n Lock → Prop :=
  Reach (fun p => Program.step p lockOf keys) anyStep Program.start

theorem right_of_reach (hfit : ThreadsFit keys n)
    (h : Program.Reachable (fun b => some (lockOf b)) keys history p) :
    Right lockOf keys history p :=
  h.invariant right_start fun _ _ _ _ _ hright _ hstep => (step_turn hstep).right hfit hright

end OsCourse.HashTable
