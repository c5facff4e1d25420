import OsCourse.Kernel.Family
import OsCourse.Lib.Forest

/-! # The process tree

`fork` adds a child to a running process, `exit` hands the children over to
`initproc`, and `wait` takes a ZOMBIE away, which has no children any more. The
parent pointers form a tree with `initproc` as its root all the time.
-/

namespace OsCourse.Kernel

open Forest Relation State Transition

variable {nproc ncpu : Nat}

/-- The process has been made RUNNABLE and its slot has not been freed. -/
def ProcState.Started (s : ProcState) : Prop := s ≠ .unused ∧ s ≠ .embryo

theorem ProcState.Active.started {s : ProcState} (h : s.Active) : s.Started := by
  rcases h with rfl | rfl | rfl <;> exact ⟨ProcState.noConfusion, ProcState.noConfusion⟩

def State.parentOf (k : State nproc ncpu) (i : Fin nproc) : Option (Fin nproc) :=
  (k.proc i).parent

/-- From every started process the parent pointers lead to `initproc`. -/
def State.Rooted (k : State nproc ncpu) : Prop :=
  ∀ i, (k.proc i).state.Started → ∃ r, k.initproc = some r ∧ Leads k.parentOf i r

theorem boot_rooted : (boot nproc ncpu).Rooted :=
  fun _ hstarted => absurd rfl hstarted.1

variable {k k' : State nproc ncpu} {a : Action nproc ncpu} {events : List (Event nproc)}

theorem State.Rooted.sameKin (h : k.Rooted) (hkin : k.SameKin k') : k'.Rooted := by
  intro i hstarted
  have hi : (k.proc i).state.Started := by
    rcases hkin.state i with heq | ⟨hactive, -⟩
    · exact heq ▸ hstarted
    · exact hactive.started
  obtain ⟨r, hr, hleads⟩ := h i hi
  refine ⟨r, hkin.initproc.trans hr, hleads.mono ?_⟩
  intro x y hxy
  exact (hkin.parent x).trans hxy

/-- Before there is an `initproc`, no process has started. -/
theorem State.Rooted.startInit (h : k.Rooted) (hnone : k.initproc = none) (i : Fin nproc) :
    (k.startInit i).Rooted := by
  intro j hstarted
  by_cases hji : j = i
  · exact ⟨i, rfl, hji ▸ .refl⟩
  · simp only [State.startInit, allocSlot, setProc_proc, if_neg hji] at hstarted
    obtain ⟨r, hr, -⟩ := h j hstarted
    rw [hnone] at hr
    cases hr

/-- A step of `fork` writes the new slot and what the caller remembers of it. -/
theorem forkWrite_eq {α : Type*} (f : Proc nproc → α)
    (hstage : ∀ (p : Proc nproc) stage, f { p with forking := stage } = f p) {p np : Fin nproc}
    {slot : Proc nproc} {stage : Option (Fin nproc × ForkStage)} (q : Fin nproc) :
    f (((k.setProc np slot).setForking p stage).proc q) =
      if q = np then f slot else f (k.proc q) := by
  rw [setForking, setProc_keeps _ f (hstage _ _), setProc_proc]
  split <;> rfl

/-- A slot that has no other parent yet may get a started one. -/
theorem State.Rooted.fork (h : k.Rooted) {p np : Fin nproc} {slot : Proc nproc}
    {stage : Option (Fin nproc × ForkStage)}
    (hkept : ∀ q, (k.proc np).parent = some q → slot.parent = some q)
    (hslot : slot.state.Started → ∃ q, slot.parent = some q ∧ (k.proc q).state.Started ∧ q ≠ np)
    (hinit : k'.initproc = k.initproc)
    (hk' : k'.proc = ((k.setProc np slot).setForking p stage).proc) : k'.Rooted := by
  have hparent : ∀ q, k'.parentOf q = if q = np then slot.parent else k.parentOf q := by
    intro q
    rw [State.parentOf, hk']
    exact forkWrite_eq Proc.parent (fun _ _ => rfl) q
  have hstate : ∀ q, (k'.proc q).state = if q = np then slot.state else (k.proc q).state := by
    intro q
    rw [hk']
    exact forkWrite_eq Proc.state (fun _ _ => rfl) q
  have hmono : ∀ x y, k.parentOf x = some y → k'.parentOf x = some y := by
    intro x y hxy
    rw [hparent]
    split
    next heq => exact hkept y (heq ▸ hxy)
    next => exact hxy
  intro i hstarted
  rw [hstate] at hstarted
  split at hstarted
  next heq =>
    -- the new process leads to `initproc` through its parent
    obtain ⟨q, hq, hqstarted, hqnp⟩ := hslot hstarted
    obtain ⟨r, hr, hleads⟩ := h q hqstarted
    refine ⟨r, hinit.trans hr, .head ?_ (hleads.mono hmono)⟩
    rw [Link, hparent, if_pos heq, hq]
  next =>
    obtain ⟨r, hr, hleads⟩ := h i hstarted
    exact ⟨r, hinit.trans hr, hleads.mono hmono⟩

theorem State.Rooted.exit (h : k.Rooted) {c : Fin ncpu} {p : Fin nproc}
    {woken : Fin nproc → Bool} (hp : (k.proc p).state = .running) (hwakes : k.Wakes p woken) :
    (k.exitWith c p woken).Rooted := by
  intro i hstarted
  have hi : (k.proc i).state.Started := by
    simp only [exitWith] at hstarted
    split at hstarted
    next heq =>
      rw [heq, hp]
      exact ⟨ProcState.noConfusion, ProcState.noConfusion⟩
    next =>
      split at hstarted
      next hwoken =>
        rw [hwakes.sleeping i hwoken]
        exact ⟨ProcState.noConfusion, ProcState.noConfusion⟩
      next => exact hstarted
  obtain ⟨r, hr, hleads⟩ := h i hi
  refine ⟨r, hr, hleads.redirect (fun _ => True) (fun _ _ _ _ => trivial) ?_ trivial⟩
  intro x y _ hxy
  simp only [State.parentOf, exitWith] at hxy ⊢
  split
  next => exact .inr hr
  next => exact .inl hxy

/-- A ZOMBIE is nobody's parent. -/
theorem State.Rooted.reap (h : k.Rooted) (hfam : k.Family) {i : Fin nproc}
    (hi : (k.proc i).state = .zombie) : (k.reap i).Rooted := by
  intro j hstarted
  have hji : j ≠ i := by
    rintro rfl
    simp [State.reap, ProcState.Started] at hstarted
  simp only [State.reap, setProc_proc, if_neg hji] at hstarted
  obtain ⟨r, hr, hleads⟩ := h j hstarted
  refine ⟨r, hr, hleads.redirect (· ≠ i) ?_ ?_ hji⟩
  · rintro x y - hxy rfl
    have hactive := hfam.parent_active x y hxy
    simp [hi, ProcState.Active] at hactive
  · intro x y hx hxy
    left
    simp only [State.parentOf, State.reap, setProc_proc, if_neg hx]
    exact hxy

theorem Effect.rooted (h : Effect k a k' events) (hk : k.Consistent) (hfam : k.Family)
    (hroot : k.Rooted) : k'.Rooted := by
  cases h with
  | stay h => exact hroot.sameKin (h.sameKin hk)
  | userinit hnone hi => exact hroot.startInit hnone _
  | forkAlloc hc hidle hnp =>
      refine hroot.fork ?_ ?_ rfl rfl
      · exact fun _ hq => hq
      · exact fun hstarted => absurd rfl hstarted.2
  | forkKstack hc hfork =>
      have hembryo := hk.embryo_of_forking _ _ _ hfork
      refine hroot.fork ?_ ?_ rfl rfl
      · exact fun _ hq => hq
      · exact fun hstarted => absurd hembryo hstarted.2
  | forkCopy hc hfork =>
      have hembryo := hk.embryo_of_forking _ _ _ hfork
      have hparent := hfam.parent_forking _ _ _ hfork
      refine hroot.fork ?_ ?_ rfl rfl
      · intro q hq
        rw [hparent] at hq
        cases hq
      · exact fun hstarted => absurd hembryo hstarted.2
  | forkAbort hc hfork hstage ha =>
      refine hroot.fork ?_ ?_ rfl rfl
      · exact fun _ hq => hq
      · exact fun hstarted => absurd rfl hstarted.1
  | @forkFinish c p np hc hfork =>
      have hembryo := hk.embryo_of_forking _ _ _ hfork
      have hparent := hfam.parent_forking _ _ _ hfork
      have hrunning := hk.running_of_cpu c p hc
      refine hroot.fork ?_ ?_ rfl rfl
      · exact fun _ hq => hq
      · refine fun _ => ⟨p, hparent, ProcState.Active.started (.inr (.inr hrunning)), ?_⟩
        rintro rfl
        rw [hrunning] at hembryo
        cases hembryo
  | exit hc hidle hinit hwakes => exact hroot.exit (hk.running_of_cpu _ _ hc) hwakes
  | reap hc hparent hi ha => exact hroot.reap hfam hi

/-- In every reachable state the parent pointers lead from every started process to
`initproc`, which has no parent, and nowhere form a cycle. -/
theorem process_tree {ok : State nproc ncpu → Action nproc ncpu → Prop}
    {history : List (Event nproc)} (h : Reach State.step ok (.boot nproc ncpu) history k) :
    (∀ i, (k.proc i).state.Started →
        ∃ r, k.initproc = some r ∧ k.parentOf r = none ∧ Leads k.parentOf i r) ∧
      ∀ i, ¬ TransGen (Link k.parentOf) i i := by
  have hinv := reach_invariant (fun _ k => k.Consistent ∧ k.Family ∧ k.Rooted)
    ⟨boot_consistent, boot_family, boot_rooted⟩
    (fun _ _ _ _ _ hk _ heffect => ⟨heffect.consistent hk.1, heffect.family hk.1 hk.2.1,
      heffect.rooted hk.1 hk.2.1 hk.2.2⟩) h
  obtain ⟨-, hfam, hroot⟩ := hinv
  have hleads : ∀ i, (k.proc i).state.Started →
      ∃ r, k.initproc = some r ∧ k.parentOf r = none ∧ Leads k.parentOf i r := by
    intro i hi
    obtain ⟨r, hr, hi⟩ := hroot i hi
    exact ⟨r, hr, hfam.init_parent r hr, hi⟩
  refine ⟨hleads, fun i hcycle => ?_⟩
  -- on a cycle every process is the parent of another one, so it has started
  obtain ⟨j, -, hlink⟩ := TransGen.tail'_iff.mp hcycle
  obtain ⟨r, -, hr, hi⟩ := hleads i (hfam.parent_active j i hlink).started
  exact hi.not_cycle hr hcycle

/-- A child of `initproc` forks and exits. -/
def adoption (c d : Fin ncpu) : List (Action nproc ncpu) :=
  [.userinit, .scheduler c 0, .forkAlloc c, .forkKalloc c true, .forkCopy c true, .forkFinish c,
    .scheduler d 0, .forkAlloc d, .forkKalloc d true, .forkCopy d true, .forkFinish d, .exit d]

theorem adoption_isSome : (run State.step (.boot 3 2) (adoption 0 1)).isSome := by decide +kernel

theorem process_tree_adoption : ∃ history k,
    Reach State.step anyStep (.boot 3 2) history k ∧ (k.proc 2).state.Started ∧
      ∃ r, k.initproc = some r ∧ k.parentOf r = none ∧ Leads k.parentOf 2 r := by
  have hreach := Reach.of_isSome (adoption 0 1) (admitted_anyStep _ _) adoption_isSome
  have hstarted : (((run State.step (.boot 3 2) (adoption 0 1)).get adoption_isSome).1.proc
      2).state.Started := by
    unfold ProcState.Started
    decide +kernel
  exact ⟨_, _, hreach, hstarted, (process_tree hreach).1 2 hstarted⟩

end OsCourse.Kernel
