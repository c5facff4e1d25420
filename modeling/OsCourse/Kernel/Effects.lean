import OsCourse.Kernel.Machine

/-! # What a step can do

Every step of the kernel is one effect from a short list, or, for a pass of
the scheduler, a switch followed by what the process does before it releases
the lock. Each effect comes with the guards under which it happens. Invariants
are proved for effects only.
-/

namespace OsCourse.Kernel

open MachineInt Transition

variable {nproc ncpu : Nat}

namespace State

variable (k : State nproc ncpu)

/-- The outcome of `exit` of `p` when it wakes up the slots in `woken`. -/
def exitWith (c : Fin ncpu) (p : Fin nproc) (woken : Fin nproc → Bool) : State nproc ncpu :=
  { k with
    proc := fun q => { k.proc q with
      state := if q = p then .zombie else if woken q then .runnable else (k.proc q).state
      parent := if (k.proc q).parent = some p then k.initproc else (k.proc q).parent }
    cpu := Function.update k.cpu c none }

/-- The slots woken up by `exit` of `p`: all were SLEEPING, the parent of `p` is
among them if it slept on itself, and so is `initproc` if it inherits a ZOMBIE. -/
structure Wakes (p : Fin nproc) (woken : Fin nproc → Bool) : Prop where
  sleeping : ∀ q, woken q → (k.proc q).state = .sleeping
  parent : ∀ q, (k.proc q).state = .sleeping → (k.proc q).chan = .ofPtr (k.proc p).parent →
    woken q
  init : ∀ q z, (k.proc q).state = .sleeping → (k.proc q).chan = .ofPtr k.initproc →
    (k.proc z).parent = some p → (k.proc z).state = .zombie → woken q

end State

/-- Table `t'` is `t` with some children of `p` passed to `init` and some
SLEEPING slots woken up. -/
def Reparented (p : Fin nproc) (init : Option (Fin nproc)) (slots : List (Fin nproc))
    (t t' : Table nproc) (woken : Fin nproc → Bool) : Prop :=
  ∀ q, t' q = { t q with
    state := if woken q then .runnable else (t q).state
    parent := if q ∈ slots ∧ (t q).parent = some p then init else (t q).parent }

theorem wakeup1_woken (t : Table nproc) (chan : Chan nproc) : ∀ q, wakeup1 t chan q =
    { t q with
      state := if decide ((t q).state = .sleeping ∧ (t q).chan = chan) then .runnable
        else (t q).state } := by
  intro q
  unfold wakeup1
  by_cases h : (t q).state = .sleeping ∧ (t q).chan = chan
  · rw [if_pos h, if_pos (decide_eq_true h)]
  · rw [if_neg h, if_neg (by simpa using h)]

/-- What the loop of `exit` does: every child is passed on, and the sleepers on
`initproc` are woken up if one of the children is a ZOMBIE. -/
theorem reparent_spec (p : Fin nproc) (init : Option (Fin nproc)) (slots : List (Fin nproc))
    (t : Table nproc) (hnodup : slots.Nodup) :
    ∃ woken, Reparented p init slots t (reparent p init slots t) woken ∧
      (∀ q, woken q → (t q).state = .sleeping) ∧
      (∀ q, ∀ z ∈ slots, (t q).state = .sleeping → (t q).chan = .ofPtr init →
        (t z).parent = some p → (t z).state = .zombie → woken q) := by
  induction slots generalizing t with
  | nil => exact ⟨fun _ => false, by simp [Reparented, reparent], by simp, by simp⟩
  | cons r rest ih =>
      obtain ⟨hr, hrest⟩ := List.nodup_cons.mp hnodup
      unfold reparent
      by_cases hparent : (t r).parent = some p
      · rw [if_pos hparent]
        simp only [Function.update_self]
        by_cases hzombie : (t r).state = .zombie
        · -- the sleepers on `init` are woken up before the loop goes on
          rw [if_pos hzombie]
          obtain ⟨woken, hspec, hsleep, -⟩ := ih (wakeup1 (Function.update t r
            { t r with parent := init }) (.ofPtr init)) hrest
          refine ⟨fun q => woken q ||
            decide ((t q).state = .sleeping ∧ (t q).chan = .ofPtr init), ?_, ?_, ?_⟩
          · intro q
            rw [hspec q, wakeup1_woken]
            by_cases hq : q = r
            · subst hq
              simp [hr, hparent, hzombie]
            · simp only [Function.update_of_ne hq, List.mem_cons, hq, false_or]
              by_cases hw : woken q <;> simp [hw]
          · intro q hq
            rcases Bool.or_eq_true _ _ |>.mp hq with hq | hq
            · have hstate := hsleep q hq
              rw [wakeup1_woken] at hstate
              by_cases hqr : q = r
              · subst hqr
                simp [hzombie] at hstate
              · simp only [Function.update_of_ne hqr] at hstate
                split at hstate
                · cases hstate
                · exact hstate
            · exact (of_decide_eq_true hq).1
          · intro q z _ hstate hchan _ _
            simp [hstate, hchan]
        · rw [if_neg hzombie]
          obtain ⟨woken, hspec, hsleep, hinit⟩ := ih (Function.update t r
            { t r with parent := init }) hrest
          refine ⟨woken, ?_, ?_, ?_⟩
          · intro q
            rw [hspec q]
            by_cases hq : q = r
            · subst hq
              simp [hr, hparent]
            · simp [hq]
          · intro q hq
            have hstate := hsleep q hq
            by_cases hqr : q = r
            · subst hqr
              simpa using hstate
            · rwa [Function.update_of_ne hqr] at hstate
          · intro q z hz hstate hchan hzp hzz
            rcases List.mem_cons.mp hz with rfl | hz
            · exact absurd hzz hzombie
            · have hzr : z ≠ r := fun heq => hr (heq ▸ hz)
              apply hinit q z hz
              · by_cases hqr : q = r
                · subst hqr
                  simpa using hstate
                · rwa [Function.update_of_ne hqr]
              · by_cases hqr : q = r
                · subst hqr
                  simpa using hchan
                · rwa [Function.update_of_ne hqr]
              · rwa [Function.update_of_ne hzr]
              · rwa [Function.update_of_ne hzr]
      · rw [if_neg hparent]
        obtain ⟨woken, hspec, hsleep, hinit⟩ := ih t hrest
        refine ⟨woken, ?_, hsleep, ?_⟩
        · intro q
          rw [hspec q]
          by_cases hq : q = r
          · subst hq
            simp [hr, hparent]
          · simp [hq]
        · intro q z hz hstate hchan hzp hzz
          rcases List.mem_cons.mp hz with rfl | hz
          · exact absurd hzp hparent
          · exact hinit q z hz hstate hchan hzp hzz

namespace State

variable {k : State nproc ncpu}

/-- `exit` in closed form. -/
theorem exitProc_eq (c : Fin ncpu) (p : Fin nproc) :
    ∃ woken, k.Wakes p woken ∧ k.exitProc c p = k.exitWith c p woken := by
  obtain ⟨woken, hspec, hsleep, hinit⟩ := reparent_spec p k.initproc (List.finRange nproc)
    (wakeup1 k.proc (.ofPtr (k.proc p).parent)) (List.nodup_finRange nproc)
  refine ⟨fun q => woken q ||
    decide ((k.proc q).state = .sleeping ∧ (k.proc q).chan = .ofPtr (k.proc p).parent), ?_, ?_⟩
  · refine ⟨?_, ?_, ?_⟩
    · intro q hq
      rcases Bool.or_eq_true _ _ |>.mp hq with hq | hq
      · have hstate := hsleep q hq
        rw [wakeup1_woken] at hstate
        dsimp only at hstate
        split at hstate
        · cases hstate
        · exact hstate
      · exact (of_decide_eq_true hq).1
    · intro q hstate hchan
      simp [hstate, hchan]
    · intro q z hstate hchan hzp hzz
      by_cases hq : (k.proc q).chan = .ofPtr (k.proc p).parent
      · simp [hstate, hq]
      · have hwoken := hinit q z (List.mem_finRange z) (by simp [wakeup1_woken, hstate, hq])
          (by simp [wakeup1_woken, hchan]) (by simp [wakeup1_woken, hzp])
          (by simp [wakeup1_woken, hzz])
        simp [hwoken]
  · simp only [exitProc, setCpu, exitWith]
    congr 1
    funext q
    by_cases hq : q = p
    · subst hq
      rw [Function.update_self, hspec q, wakeup1_woken]
      simp
    · rw [Function.update_of_ne hq, hspec q, wakeup1_woken]
      by_cases hw : woken q <;> simp [hq, hw]

end State

/-- The event reports that a system call returned -1. -/
def Event.Failed : Event nproc → Prop
  | .fork _ ret => ret = -1
  | .wait _ ret => ret = -1
  | .kill _ ret => ret = -1
  | _ => False

/-- An effect that neither begins nor ends a process: at most the states of some
active processes change, with what is recorded about them. -/
inductive LocalEffect (k : State nproc ncpu) :
    Action nproc ncpu → State nproc ncpu → List (Event nproc) → Prop
  | none {a : Action nproc ncpu} {events : List (Event nproc)}
      (hfailed : ∀ e ∈ events, e.Failed) : LocalEffect k a k events
  | waitSleep {a : Action nproc ncpu} {c : Fin ncpu} {p i : Fin nproc} (hc : k.cpu c = some p)
      (hparent : (k.proc i).parent = some p)
      (hzombie : ∀ q, (k.proc q).parent = some p → (k.proc q).state ≠ .zombie) :
      LocalEffect k a (k.sched c p .sleeping (.proc p) .waitSleep) []
  | sleep {c : Fin ncpu} {p : Fin nproc} {chan : Chan nproc} (hc : k.cpu c = some p) :
      LocalEffect k (.sleep c chan) (k.sched c p .sleeping chan .sleep) []
  | yield {c : Fin ncpu} {p : Fin nproc} (hc : k.cpu c = some p) :
      LocalEffect k (.yield c) (k.sched c p .runnable (k.proc p).chan .yield) []
  | dispatch {c : Fin ncpu} {winner : Int} {p : Fin nproc} (hc : k.cpu c = none)
      (hp : (k.proc p).state = .runnable) :
      LocalEffect k (.scheduler c winner) (k.dispatch c p) [.switch p]
  | clearChan {c : Fin ncpu} {winner : Int} {p : Fin nproc} (hc : k.cpu c = some p) :
      LocalEffect k (.scheduler c winner) (k.clearChan p) []
  | wakeup {chan : Chan nproc} :
      LocalEffect k (.wakeup chan) { k with proc := wakeup1 k.proc chan } []
  | kill {c : Fin ncpu} {pid : Int} {i : Fin nproc} (hpid : findPid k.proc pid = some i) :
      LocalEffect k (.kill c pid) (k.markKilled i) [.kill pid 0]
  | settickets {c : Fin ncpu} {p : Fin nproc} {tix : Int} (hc : k.cpu c = some p) :
      LocalEffect k (.settickets c tix) (k.setProc p { k.proc p with tickets := tix }) []

/-- One effect of an action on the state, with the events it emits. -/
inductive Effect (k : State nproc ncpu) :
    Action nproc ncpu → State nproc ncpu → List (Event nproc) → Prop
  | stay {a : Action nproc ncpu} {k' : State nproc ncpu} {events : List (Event nproc)}
      (h : LocalEffect k a k' events) : Effect k a k' events
  | userinit {i : Fin nproc} (hinit : k.initproc = none) (hi : (k.proc i).state = .unused) :
      Effect k .userinit (k.startInit i) [.alloc i k.nextpid]
  | forkAlloc {c : Fin ncpu} {p np : Fin nproc} (hc : k.cpu c = some p)
      (hidle : (k.proc p).forking = none) (hnp : (k.proc np).state = .unused) :
      Effect k (.forkAlloc c) ((k.allocSlot np).setForking p (some (np, .allocated)))
        [.alloc np k.nextpid]
  | forkKstack {c : Fin ncpu} {p np : Fin nproc} (hc : k.cpu c = some p)
      (hfork : (k.proc p).forking = some (np, .allocated)) :
      Effect k (.forkKalloc c true)
        ((k.setProc np { k.proc np with context := .forkret }).setForking p (some (np, .kstack)))
        []
  | forkCopy {c : Fin ncpu} {p np : Fin nproc} (hc : k.cpu c = some p)
      (hfork : (k.proc p).forking = some (np, .kstack)) :
      Effect k (.forkCopy c true)
        ((k.setProc np { k.proc np with parent := some p }).setForking p (some (np, .copied))) []
  | forkAbort {a : Action nproc ncpu} {c : Fin ncpu} {p np : Fin nproc} {stage : ForkStage}
      (hc : k.cpu c = some p) (hfork : (k.proc p).forking = some (np, stage))
      (hstage : stage ≠ .copied) (ha : a = .forkKalloc c false ∨ a = .forkCopy c false) :
      Effect k a (k.abortFork p np) [.fork (k.proc p).pid (-1)]
  | forkFinish {c : Fin ncpu} {p np : Fin nproc} (hc : k.cpu c = some p)
      (hfork : (k.proc p).forking = some (np, .copied)) :
      Effect k (.forkFinish c)
        ((k.setProc np { k.proc np with state := .runnable }).setForking p none)
        [.fork (k.proc p).pid (k.proc np).pid]
  | exit {c : Fin ncpu} {p : Fin nproc} {woken : Fin nproc → Bool} (hc : k.cpu c = some p)
      (hidle : (k.proc p).forking = none) (hinit : k.initproc ≠ some p)
      (hwakes : k.Wakes p woken) :
      Effect k (.exit c) (k.exitWith c p woken) [.exit (k.proc p).pid]
  | reap {a : Action nproc ncpu} {c : Fin ncpu} {p i : Fin nproc} (hc : k.cpu c = some p)
      (hparent : (k.proc i).parent = some p) (hi : (k.proc i).state = .zombie)
      (ha : a = .wait c ∨ ∃ winner, a = .scheduler c winner) :
      Effect k a (k.reap i) [.wait (k.proc p).pid (k.proc i).pid]

/-- The effects of one step, in order. Only a pass of the scheduler has more
than one. -/
inductive Effects (a : Action nproc ncpu) :
    State nproc ncpu → State nproc ncpu → List (Event nproc) → Prop
  | one {k k' : State nproc ncpu} {events : List (Event nproc)} (h : Effect k a k' events) :
      Effects a k k' events
  | cons {k k' k'' : State nproc ncpu} {events rest : List (Event nproc)} {c : Fin ncpu}
      {winner : Int} (ha : a = .scheduler c winner) (h : Effect k a k' events)
      (hrest : Effects a k' k'' rest) : Effects a k k'' (events ++ rest)

namespace State

variable {k k' : State nproc ncpu} {c : Fin ncpu}

theorem caller_eq_some {p : Fin nproc} (h : k.caller c = some p) :
    k.cpu c = some p ∧ (k.proc p).forking = none := by
  simpa [caller, Option.filter_eq_some_iff] using h

theorem forkingAt_eq_some {p np : Fin nproc} {stage : ForkStage}
    (h : k.forkingAt c stage = some (p, np)) :
    k.cpu c = some p ∧ (k.proc p).forking = some (np, stage) := by
  unfold forkingAt at h
  obtain ⟨q, hq, h⟩ := Option.bind_eq_some_iff.mp h
  split at h
  next np' s hfork =>
    split at h
    next heq =>
      cases h
      exact ⟨hq, heq ▸ hfork⟩
    next => cases h
  next => cases h

/-- A turn of the loop of `wait` is one effect. -/
theorem waitTurn_effect {a : Action nproc ncpu} {p : Fin nproc} (hc : k.cpu c = some p)
    (ha : a = .wait c ∨ ∃ winner, a = .scheduler c winner) :
    Effect k a (k.waitTurn c p).1 (k.waitTurn c p).2 := by
  unfold waitTurn
  split
  next i _ hscan =>
    obtain ⟨hparent, hzombie⟩ := scanChildren_some p (List.finRange nproc) false
      (congrArg Prod.fst hscan)
    exact .reap hc hparent hzombie ha
  next havekids hscan =>
    obtain ⟨hzombie, hkids⟩ := scanChildren_none p (List.finRange nproc) false
      (congrArg Prod.fst hscan)
    split
    next => exact .stay (.none (by simp [Event.Failed]))
    next hkill =>
      have hsome : havekids = true := by
        cases havekids <;> simp_all
      rw [hscan] at hkids
      obtain ⟨i, -, hi⟩ := (hkids.mp hsome).resolve_left Bool.false_ne_true
      exact .stay (.waitSleep hc hi fun q => hzombie q (List.mem_finRange q))

/-- Every step is a chain of effects. -/
theorem step_effects {a : Action nproc ncpu} {events : List (Event nproc)}
    (h : k.step a = some (k', events)) : Effects a k k' events := by
  cases a with
  | userinit =>
      simp only [step] at h
      split at h
      next hinit =>
        obtain ⟨i, hi, h⟩ := Option.map_eq_some_iff.mp h
        cases h
        exact .one (.userinit hinit (findUnused_some hi))
      next => cases h
  | forkAlloc c =>
      obtain ⟨p, hp, h⟩ := Option.map_eq_some_iff.mp h
      obtain ⟨hc, hidle⟩ := caller_eq_some hp
      split at h
      next =>
        cases h
        exact .one (.stay (.none (by simp [Event.Failed])))
      next np hnp =>
        cases h
        exact .one (.forkAlloc hc hidle (findUnused_some hnp))
  | forkKalloc c ok =>
      obtain ⟨⟨p, np⟩, hp, h⟩ := Option.map_eq_some_iff.mp h
      obtain ⟨hc, hfork⟩ := forkingAt_eq_some hp
      cases ok with
      | true =>
          cases h
          exact .one (.forkKstack hc hfork)
      | false =>
          cases h
          exact .one (.forkAbort hc hfork ForkStage.noConfusion (.inl rfl))
  | forkCopy c ok =>
      obtain ⟨⟨p, np⟩, hp, h⟩ := Option.map_eq_some_iff.mp h
      obtain ⟨hc, hfork⟩ := forkingAt_eq_some hp
      cases ok with
      | true =>
          cases h
          exact .one (.forkCopy hc hfork)
      | false =>
          cases h
          exact .one (.forkAbort hc hfork ForkStage.noConfusion (.inr rfl))
  | forkFinish c =>
      obtain ⟨⟨p, np⟩, hp, h⟩ := Option.map_eq_some_iff.mp h
      obtain ⟨hc, hfork⟩ := forkingAt_eq_some hp
      cases h
      exact .one (.forkFinish hc hfork)
  | exit c =>
      obtain ⟨p, hp, h⟩ := Option.bind_eq_some_iff.mp h
      obtain ⟨hc, hidle⟩ := caller_eq_some hp
      split at h
      next => cases h
      next hinit =>
        cases h
        obtain ⟨woken, hwakes, heq⟩ := k.exitProc_eq c p
        rw [heq]
        exact .one (.exit hc hidle hinit hwakes)
  | wait c =>
      obtain ⟨p, hp, h⟩ := Option.map_eq_some_iff.mp h
      obtain ⟨hc, -⟩ := caller_eq_some hp
      have heffect := waitTurn_effect (a := .wait c) hc (.inl rfl)
      rw [h] at heffect
      exact .one heffect
  | sleep c chan =>
      obtain ⟨p, hp, h⟩ := Option.map_eq_some_iff.mp h
      cases h
      exact .one (.stay (.sleep (caller_eq_some hp).1))
  | wakeup chan =>
      cases h
      exact .one (.stay .wakeup)
  | kill c pid =>
      obtain ⟨p, hp, h⟩ := Option.map_eq_some_iff.mp h
      split at h
      next hpid =>
        cases h
        exact .one (.stay (.none (by simp [Event.Failed])))
      next i hpid =>
        cases h
        exact .one (.stay (.kill hpid))
  | yield c =>
      obtain ⟨p, hp, h⟩ := Option.map_eq_some_iff.mp h
      cases h
      exact .one (.stay (.yield hp))
  | scheduler c winner =>
      simp only [step] at h
      split at h
      next hc =>
        split at h
        next =>
          cases h
          exact .one (.stay (.none (by simp)))
        next p hp =>
          -- the switch, then the code of `p` up to the release of the lock
          cases h
          have hswitch : Effect k (.scheduler c winner) (k.dispatch c p) [.switch p] :=
            .stay (.dispatch hc (pick_runnable hp))
          have hcpu : (k.dispatch c p).cpu c = some p := by simp [dispatch, setCpu]
          apply Effects.cons rfl hswitch
          unfold resume
          split
          · exact .one (.stay (.none (by simp)))
          · exact .one (.stay (.none (by simp)))
          · exact .one (.stay (.clearChan hcpu))
          · apply Effects.cons rfl (.stay (.clearChan hcpu))
            exact .one (waitTurn_effect hcpu (.inr ⟨winner, rfl⟩))
      next => cases h
  | settickets c tix =>
      obtain ⟨p, hp, h⟩ := Option.map_eq_some_iff.mp h
      cases h
      exact .one (.stay (.settickets (caller_eq_some hp).1))

end State

/-! ## Invariants from effects -/

/-- A side condition that never concerns a pass of the scheduler, at a state in
which one of the effects of an action happens. -/
def Admits (ok : State nproc ncpu → Action nproc ncpu → Prop) (k : State nproc ncpu)
    (a : Action nproc ncpu) : Prop :=
  (∃ c winner, a = .scheduler c winner) ∨ ok k a

variable {ok : State nproc ncpu → Action nproc ncpu → Prop}

/-- What every effect of a step preserves, the step preserves. -/
theorem Effects.invariant (inv : List (Event nproc) → State nproc ncpu → Prop)
    (heffect : ∀ history k a k' events, inv history k → Admits ok k a →
      Effect k a k' events → inv (history ++ events) k')
    {a : Action nproc ncpu} {k k' : State nproc ncpu} {events : List (Event nproc)}
    (h : Effects a k k' events) {history : List (Event nproc)} (hk : inv history k)
    (hok : Admits ok k a) : inv (history ++ events) k' := by
  induction h generalizing history with
  | one h => exact heffect _ _ _ _ _ hk hok h
  | cons ha h _ ih =>
      rw [← List.append_assoc]
      exact ih (heffect _ _ _ _ _ hk hok h) (.inl ⟨_, _, ha⟩)

/-- What every effect preserves holds throughout every run. -/
theorem reach_invariant (inv : List (Event nproc) → State nproc ncpu → Prop)
    (hboot : inv [] (.boot nproc ncpu))
    (heffect : ∀ history k a k' events, inv history k → Admits ok k a →
      Effect k a k' events → inv (history ++ events) k')
    {history : List (Event nproc)} {k : State nproc ncpu}
    (h : Reach State.step ok (.boot nproc ncpu) history k) : inv history k :=
  h.invariant hboot fun _ _ _ _ _ hk hok hstep =>
    (State.step_effects hstep).invariant inv heffect hk (.inr hok)

end OsCourse.Kernel
