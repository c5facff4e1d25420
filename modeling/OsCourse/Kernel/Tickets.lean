import Mathlib.Algebra.BigOperators.Fin
import Mathlib.Algebra.BigOperators.Group.Finset.Piecewise
import Mathlib.Algebra.Order.BigOperators.Group.Finset
import OsCourse.Kernel.Cpus
import OsCourse.Kernel.Lottery

/-! # Tickets over whole runs

A pass of the scheduler is sound as long as no process has a negative number
of tickets and all tickets together fit the arithmetic of the pass. Neither
`sys_settickets` nor `allocproc` looks after that; it holds throughout a run if
every write of a ticket number respects it.
-/

namespace OsCourse.Kernel

open MachineInt Transition State

section Pass

variable {n : Nat} (t : Table n)

/-- Every addition of the first loop of `scheduler` has an `int` as its result. -/
def SumLoopExact : List (Fin n) → Int → Prop
  | [], _ => True
  | p :: rest, num =>
      if (t p).state = .runnable then
        InRange (num + (t p).tickets) ∧ SumLoopExact rest (wrap (num + (t p).tickets))
      else SumLoopExact rest num

/-- Every addition of the second loop of `scheduler` has an `int` as its result. -/
def PickLoopExact (winner : Int) : List (Fin n) → Int → Prop
  | [], _ => True
  | p :: rest, counter =>
      if (t p).state ≠ .runnable then PickLoopExact winner rest counter
      else
        InRange (counter + (t p).tickets) ∧
          (wrap (counter + (t p).tickets) < winner →
            PickLoopExact winner rest (wrap (counter + (t p).tickets)))

/-- A pass over the table is sound: the sums are exact, `random_at_most` is called
with an argument from 0 to `randMax`, and whatever it returns, a RUNNABLE slot
is selected if there is one. -/
structure PassSound (randMax : Int) : Prop where
  sum : SumLoopExact t (List.finRange n) 0
  domain : 0 ≤ numTickets t ∧ numTickets t ≤ randMax
  counter : ∀ winner, 0 ≤ winner → winner ≤ numTickets t →
    PickLoopExact t winner (List.finRange n) 0
  switches : (∃ p, (t p).state = .runnable) → ∀ winner, 0 ≤ winner → winner ≤ numTickets t →
    ∃ p, pick t winner = some p ∧ (t p).state = .runnable

variable {t} (htickets : NonnegTickets t)
include htickets

theorem sumLoopExact (slots : List (Fin n)) (num : Int) (hnum : 0 ≤ num)
    (hmax : num + ticketSum t slots ≤ intMax) : SumLoopExact t slots num := by
  induction slots generalizing num with
  | nil => trivial
  | cons p slots ih =>
      have hrest := ticketSum_nonneg htickets slots
      rw [ticketSum_cons] at hmax
      unfold SumLoopExact
      split
      next hstate =>
        have hp := htickets p hstate
        rw [if_pos hstate] at hmax
        have hrange : InRange (num + (t p).tickets) :=
          inRange_of_nonneg (by omega) le_rfl (by omega)
        refine ⟨hrange, ?_⟩
        rw [wrap_of_inRange hrange]
        exact ih _ (by omega) (by omega)
      next hstate =>
        rw [if_neg hstate] at hmax
        exact ih num hnum (by omega)

theorem pickLoopExact (winner : Int) (slots : List (Fin n)) (counter : Int)
    (hcounter : 0 ≤ counter) (hmax : counter + ticketSum t slots ≤ intMax) :
    PickLoopExact t winner slots counter := by
  induction slots generalizing counter with
  | nil => trivial
  | cons p slots ih =>
      have hrest := ticketSum_nonneg htickets slots
      rw [ticketSum_cons] at hmax
      unfold PickLoopExact
      split
      next hstate =>
        rw [if_neg hstate] at hmax
        exact ih counter hcounter (by omega)
      next hstate =>
        have hstate' := not_not.mp hstate
        have hp := htickets p hstate'
        rw [if_pos hstate'] at hmax
        have hrange : InRange (counter + (t p).tickets) :=
          inRange_of_nonneg (by omega) le_rfl (by omega)
        refine ⟨hrange, ?_⟩
        intro _
        rw [wrap_of_inRange hrange]
        exact ih _ (by omega) (by omega)

theorem passSound_of_totalTickets {randMax : Int} (hmax : totalTickets t ≤ intMax)
    (hrand : totalTickets t ≤ randMax) : PassSound t randMax := by
  have hnum := numTickets_eq htickets hmax
  have hsum : (0 : Int) + ticketSum t (List.finRange n) ≤ intMax := by
    rwa [zero_add]
  refine ⟨sumLoopExact htickets _ 0 le_rfl hsum, ?_, ?_, ?_⟩
  · rw [hnum]
    exact ⟨ticketSum_nonneg htickets _, hrand⟩
  · intro winner _ _
    exact pickLoopExact htickets winner _ 0 le_rfl hsum
  · rintro ⟨p, hp⟩ winner - hle
    rw [hnum] at hle
    have hstop := pickLoop_stop htickets winner (List.finRange n) [] 0 le_rfl
      (by rwa [List.append_nil]) ⟨p, List.mem_finRange p, hp⟩ (by rwa [zero_add])
    obtain ⟨q, -, hq⟩ := hstop
    rw [List.append_nil] at hq
    exact ⟨q, hq, pick_runnable hq⟩

end Pass

section Committed

variable {n : Nat}

/-- The tickets a slot may bring into a lottery without a further write. -/
def Proc.weight (p : Proc n) : Int :=
  if p.state = .unused ∨ p.state = .zombie then 0 else p.tickets

/-- The tickets of all processes that have not exited. -/
def committed (t : Table n) : Int := ∑ i, (t i).weight

/-- A change of the weight of one slot. -/
theorem committed_le {t t' : Table n} (i : Fin n) (d : Int)
    (h : ∀ q, (t' q).weight ≤ (t q).weight + if q = i then d else 0) :
    committed t' ≤ committed t + d := by
  calc committed t' ≤ ∑ q, ((t q).weight + if q = i then d else 0) :=
        Finset.sum_le_sum fun q _ => h q
    _ = committed t + d := by
        rw [Finset.sum_add_distrib, Finset.sum_ite_eq' Finset.univ i fun _ => d,
          if_pos (Finset.mem_univ i)]
        rfl

theorem totalTickets_le_committed {t : Table n} (h : ∀ q, 0 ≤ (t q).weight) :
    totalTickets t ≤ committed t := by
  have hsum : totalTickets t =
      ∑ q, if (t q).state = .runnable then (t q).tickets else 0 := by
    rw [← List.sum_ofFn, List.ofFn_eq_map]
    rfl
  rw [hsum]
  apply Finset.sum_le_sum
  intro q _
  split
  next hstate => simp [Proc.weight, hstate]
  next => exact h q

end Committed

section Runs

variable {nproc ncpu : Nat} {k k' : State nproc ncpu} {a : Action nproc ncpu}
  {events : List (Event nproc)}

/-- The largest sum of tickets a pass can deal with. -/
def ticketLimit (randMax : Int) : Int := min intMax randMax

/-- A write of a ticket number keeps to the limits: a number set by
`sys_settickets` is not negative, and neither it nor the tickets of a new slot
bring all processes together above the limit. -/
def ticketsFit (randMax : Int) (k : State nproc ncpu) : Action nproc ncpu → Prop
  | .userinit => committed k.proc + magicTicketNum ≤ ticketLimit randMax
  | .forkAlloc _ => (∃ i, (k.proc i).state = .unused) →
      committed k.proc + magicTicketNum ≤ ticketLimit randMax
  | .settickets c tix => ∀ p, k.cpu c = some p →
      0 ≤ tix ∧ committed k.proc - (k.proc p).tickets + tix ≤ ticketLimit randMax
  | _ => True

instance (randMax : Int) (k : State nproc ncpu) :
    ∀ a, Decidable (ticketsFit randMax k a)
  | .userinit => inferInstanceAs (Decidable (committed k.proc + _ ≤ _))
  | .forkAlloc _ => inferInstanceAs (Decidable ((∃ i, (k.proc i).state = .unused) → _ ≤ _))
  | .settickets c _ => inferInstanceAs (Decidable (∀ p, k.cpu c = some p → _ ∧ _ ≤ _))
  | .forkKalloc _ _ | .forkCopy _ _ | .forkFinish _ | .exit _ | .wait _ | .sleep _ _ | .wakeup _
  | .kill _ _ | .yield _ | .scheduler _ _ => .isTrue trivial

/-- Tickets are not negative and stay within the limit together. -/
structure State.TicketsBounded (randMax : Int) (k : State nproc ncpu) : Prop where
  nonneg : ∀ q, 0 ≤ (k.proc q).weight
  le_limit : committed k.proc ≤ ticketLimit randMax

/-- What an effect does to the weights: nothing but dropping some, or it gives a
new slot its tickets, or it sets the tickets of a running process. -/
theorem Effect.weight_cases (h : Effect k a k' events) (hk : k.Consistent) :
    (∀ q, (k'.proc q).weight = (k.proc q).weight ∨ (k'.proc q).weight = 0) ∨
    (∃ np, (a = .userinit ∨ ∃ c, a = .forkAlloc c) ∧ (k.proc np).state = .unused ∧
      ∀ q, (k'.proc q).weight = if q = np then magicTicketNum else (k.proc q).weight) ∨
    ∃ c p tix, a = .settickets c tix ∧ k.cpu c = some p ∧ (k.proc p).state = .running ∧
      ∀ q, (k'.proc q).weight = if q = p then tix else (k.proc q).weight := by
  have hrun := hk.running_of_cpu
  -- most effects write one slot, and the steps of `fork` two, and keep the weight
  have hone : ∀ {i : Fin nproc} {p : Proc nproc}, p.weight = (k.proc i).weight →
      ∀ q, ((k.setProc i p).proc q).weight = (k.proc q).weight ∨
        ((k.setProc i p).proc q).weight = 0 :=
    fun heq q => .inl (k.setProc_keeps Proc.weight heq q)
  have htwo : ∀ {p np : Fin nproc} {slot : Proc nproc} {stage : Option (Fin nproc × ForkStage)},
      slot.weight = (k.proc np).weight →
      ∀ q, (((k.setProc np slot).setForking p stage).proc q).weight = (k.proc q).weight ∨
        (((k.setProc np slot).setForking p stage).proc q).weight = 0 :=
    fun heq q => .inl (k.setForking_keeps Proc.weight (fun _ _ => rfl) heq q)
  cases h with
  | stay h =>
      cases h with
      | none => exact .inl fun q => .inl rfl
      | waitSleep hc => exact .inl (hone (by simp [Proc.weight, hrun _ _ hc]))
      | sleep hc => exact .inl (hone (by simp [Proc.weight, hrun _ _ hc]))
      | yield hc => exact .inl (hone (by simp [Proc.weight, hrun _ _ hc]))
      | dispatch hc hp => exact .inl (hone (by simp [Proc.weight, hp]))
      | clearChan hc => exact .inl (hone (by rfl))
      | wakeup =>
          left
          simp only [Proc.weight, wakeup1]
          grind
      | kill hpid =>
          left
          simp only [Proc.weight, markKilled, setProc_proc]
          grind
      | @settickets c p tix hc =>
          refine .inr (.inr ⟨c, p, tix, rfl, hc, hrun c p hc, ?_⟩)
          have hp := hrun c p hc
          simp only [Proc.weight, setProc_proc]
          grind
  | @userinit i hinit hi =>
      refine .inr (.inl ⟨i, .inl rfl, hi, ?_⟩)
      simp only [Proc.weight, startInit, allocSlot, setProc_proc]
      grind
  | @forkAlloc c p np hc hidle hnp =>
      refine .inr (.inl ⟨np, .inr ⟨c, rfl⟩, hnp, ?_⟩)
      have hp := hrun c p hc
      simp only [Proc.weight, setForking, allocSlot, setProc_proc]
      grind
  | forkKstack hc hfork => exact .inl (htwo (by rfl))
  | forkCopy hc hfork => exact .inl (htwo (by rfl))
  | forkAbort hc hfork =>
      left
      simp only [Proc.weight, abortFork, setForking, setProc_proc]
      grind
  | forkFinish hc hfork =>
      exact .inl (htwo (by simp [Proc.weight, hk.embryo_of_forking _ _ _ hfork]))
  | exit hc hidle hinit hwakes =>
      have hsleeping := hwakes.sleeping
      left
      simp only [Proc.weight, exitWith]
      grind
  | reap hc hparent hi =>
      left
      simp only [Proc.weight, State.reap, setProc_proc]
      grind

theorem Effect.ticketsBounded {randMax : Int} (h : Effect k a k' events) (hk : k.Consistent)
    (hok : Admits (ticketsFit randMax) k a) (hbound : k.TicketsBounded randMax) :
    k'.TicketsBounded randMax := by
  obtain ⟨hnonneg, hle⟩ := hbound
  rcases h.weight_cases hk with hsame | ⟨np, ha, hnp, hweight⟩ |
    ⟨c, p, tix, rfl, hc, hp, hweight⟩
  · refine ⟨?_, ?_⟩
    · intro q
      rcases hsame q with heq | heq
      · rw [heq]
        exact hnonneg q
      · exact heq.ge
    · apply le_trans _ hle
      apply Finset.sum_le_sum
      intro q _
      rcases hsame q with heq | heq
      · exact heq.le
      · rw [heq]
        exact hnonneg q
  · have hfit : committed k.proc + magicTicketNum ≤ ticketLimit randMax := by
      rcases hok with ⟨_, _, rfl⟩ | hok
      · simp at ha
      · rcases ha with rfl | ⟨c, rfl⟩
        · exact hok
        · exact hok ⟨np, hnp⟩
    refine ⟨?_, le_trans (committed_le np magicTicketNum ?_) hfit⟩
    · intro q
      rw [hweight]
      split
      next => decide
      next => exact hnonneg q
    · intro q
      rw [hweight]
      split
      next => exact le_add_of_nonneg_left (hnonneg q)
      next => rw [add_zero]
  · have hfit : 0 ≤ tix ∧ committed k.proc - (k.proc p).tickets + tix ≤ ticketLimit randMax := by
      rcases hok with ⟨_, _, ha⟩ | hok
      · cases ha
      · exact hok p hc
    have hold : (k.proc p).weight = (k.proc p).tickets := by simp [Proc.weight, hp]
    have hsum : committed k'.proc ≤ committed k.proc + (tix - (k.proc p).tickets) := by
      apply committed_le p
      intro q
      rw [hweight]
      split
      next heq =>
        rw [heq, hold]
        omega
      next => rw [add_zero]
    refine ⟨?_, by omega⟩
    intro q
    rw [hweight]
    split
    next => exact hfit.1
    next => exact hnonneg q

theorem boot_ticketsBounded {randMax : Int} (hrand : 0 ≤ randMax) :
    (boot nproc ncpu).TicketsBounded randMax := by
  refine ⟨?_, ?_⟩
  · simp [boot, Proc.zero, Proc.weight]
  · have hzero : committed (boot nproc ncpu).proc = 0 :=
      Finset.sum_eq_zero fun q _ => by simp [boot, Proc.zero, Proc.weight]
    rw [hzero]
    exact le_min (by decide) hrand

/-- In every run whose writes of ticket numbers keep to the limits, every pass of
a scheduler is sound. -/
theorem passSound_of_ticketsFit {randMax : Int} (hrand : 0 ≤ randMax)
    {history : List (Event nproc)}
    (h : Reach State.step (ticketsFit randMax) (.boot nproc ncpu) history k) :
    PassSound k.proc randMax := by
  have hinv := reach_invariant (fun _ k => k.Consistent ∧ k.TicketsBounded randMax)
    ⟨boot_consistent, boot_ticketsBounded hrand⟩
    (fun _ _ _ _ _ hk hok heffect =>
      ⟨heffect.consistent hk.1, heffect.ticketsBounded hk.1 hok hk.2⟩) h
  obtain ⟨-, hnonneg, hle⟩ := hinv
  have htotal := totalTickets_le_committed hnonneg
  apply passSound_of_totalTickets
  · intro p hp
    simpa [Proc.weight, hp] using hnonneg p
  · exact htotal.trans (hle.trans (min_le_left _ _))
  · exact htotal.trans (hle.trans (min_le_right _ _))

/-- `initproc` sets its tickets and yields. -/
def setYield (c : Fin ncpu) (tix : Int) : List (Action nproc ncpu) :=
  [.userinit, .scheduler c 0, .settickets c tix, .yield c]

theorem setYield_isSome (tix : Int) :
    (run State.step (.boot 1 1) (setYield 0 tix)).isSome := rfl

theorem passSound_of_ticketsFit_setYield : ∃ history k,
    Reach State.step (ticketsFit 32767) (.boot 1 1) history k ∧
      numTickets k.proc = 5 ∧ PassSound k.proc 32767 := by
  have hreach : Reach State.step (ticketsFit 32767) (.boot 1 1) _ _ :=
    Reach.of_isSome (setYield 0 5) (by decide +kernel) (setYield_isSome 5)
  exact ⟨_, _, hreach, by decide +kernel, passSound_of_ticketsFit (by decide) hreach⟩

/-- After `settickets(-1)` and a `yield`, `random_at_most` is called with -1. -/
theorem setYield_not_sound : ∃ history k,
    Reach State.step anyStep (.boot 1 1) history k ∧ ∀ randMax, ¬ PassSound k.proc randMax := by
  have hreach := Reach.of_isSome (setYield 0 (-1)) (admitted_anyStep _ _) (setYield_isSome (-1))
  refine ⟨_, _, hreach, ?_⟩
  intro randMax hsound
  have hnum := hsound.domain.1
  revert hnum
  decide +kernel

end Runs

end OsCourse.Kernel
