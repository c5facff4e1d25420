import Mathlib.Data.Finset.Card
import Mathlib.Data.Int.Interval
import Mathlib.Order.Interval.Finset.Basic
import Mathlib.Tactic.FinCases
import Mathlib.Tactic.Linarith
import Mathlib.Tactic.Ring
import OsCourse.Kernel.Proc

/-! # The lottery

One pass of `scheduler` sums the tickets of the RUNNABLE slots and then looks
for the slot at which a running sum reaches the winner. Both loops are exact
as long as the tickets are not negative and their sum is an `int`.
-/

namespace OsCourse.Kernel

open MachineInt

variable {n : Nat}

/-- The exact number of tickets of the RUNNABLE slots of a list. -/
def ticketSum (t : Table n) (slots : List (Fin n)) : Int :=
  (slots.map fun p => if (t p).state = .runnable then (t p).tickets else 0).sum

/-- The exact number of tickets in a lottery over the table. -/
def totalTickets (t : Table n) : Int := ticketSum t (List.finRange n)

/-- No RUNNABLE slot has a negative number of tickets. -/
def NonnegTickets (t : Table n) : Prop := ∀ p, (t p).state = .runnable → 0 ≤ (t p).tickets

/-- The first RUNNABLE slot. -/
def firstRunnable (t : Table n) : Option (Fin n) :=
  (List.finRange n).find? fun p => (t p).state = .runnable

@[simp] theorem ticketSum_nil (t : Table n) : ticketSum t [] = 0 := rfl

@[simp] theorem ticketSum_cons (t : Table n) (p : Fin n) (slots : List (Fin n)) :
    ticketSum t (p :: slots) =
      (if (t p).state = .runnable then (t p).tickets else 0) + ticketSum t slots :=
  List.sum_cons

@[simp] theorem ticketSum_append (t : Table n) (first second : List (Fin n)) :
    ticketSum t (first ++ second) = ticketSum t first + ticketSum t second := by
  simp [ticketSum]

theorem mem_of_pickLoop {t : Table n} {winner : Int} {slots : List (Fin n)} {counter : Int}
    {p : Fin n} (h : pickLoop t winner slots counter = some p) : p ∈ slots := by
  fun_induction pickLoop t winner slots counter with
  | case1 => cases h
  | case2 q rest counter hstate ih => exact List.mem_cons_of_mem _ (ih h)
  | case3 q rest counter hstate counter' hlt ih => exact List.mem_cons_of_mem _ (ih h)
  | case4 q rest counter hstate counter' hlt =>
      cases h
      exact List.mem_cons_self

theorem ticketSum_eq_zero {t : Table n} {slots : List (Fin n)}
    (h : ∀ p ∈ slots, (t p).state ≠ .runnable) : ticketSum t slots = 0 := by
  apply List.sum_eq_zero
  intro x hx
  obtain ⟨p, hp, rfl⟩ := List.mem_map.mp hx
  exact if_neg (h p hp)

/-- A RUNNABLE slot is the first one when none stands before it. -/
theorem firstRunnable_eq_some_iff {t : Table n} {p : Fin n} (hp : (t p).state = .runnable)
    {first second : List (Fin n)} (hsplit : List.finRange n = first ++ p :: second) :
    firstRunnable t = some p ↔ ∀ q ∈ first, (t q).state ≠ .runnable := by
  have hnodup := List.nodup_finRange n
  rw [hsplit, List.nodup_append] at hnodup
  rw [firstRunnable, hsplit, List.find?_append]
  constructor
  · intro hfind q hq hstate
    cases hleft : first.find? fun p => (t p).state = .runnable with
    | none => simpa [hstate] using List.find?_eq_none.mp hleft q hq
    | some r =>
        rw [hleft] at hfind
        cases hfind
        exact hnodup.2.2 p (List.mem_of_find?_eq_some hleft) p List.mem_cons_self rfl
  · intro hnone
    rw [List.find?_eq_none.mpr (by simpa using hnone)]
    simp [hp]

section Exact

variable {t : Table n} (htickets : NonnegTickets t)
include htickets

theorem ticketSum_nonneg (slots : List (Fin n)) : 0 ≤ ticketSum t slots := by
  induction slots with
  | nil => simp
  | cons p slots ih =>
      rw [ticketSum_cons]
      split
      next hstate =>
        have := htickets p hstate
        omega
      next => omega

/-- The first loop computes the exact sum. -/
theorem sumLoop_eq (slots : List (Fin n)) (num : Int) (hnum : 0 ≤ num)
    (hmax : num + ticketSum t slots ≤ intMax) :
    sumLoop t slots num = num + ticketSum t slots := by
  induction slots generalizing num with
  | nil => simp [sumLoop]
  | cons p slots ih =>
      have hrest := ticketSum_nonneg htickets slots
      rw [ticketSum_cons] at hmax ⊢
      unfold sumLoop
      split
      next hstate =>
        have hp := htickets p hstate
        rw [if_pos hstate] at hmax
        rw [wrap_of_inRange (inRange_of_nonneg (by omega) (Int.le_refl _) (by omega)),
          ih _ (by omega) (by omega)]
        omega
      next hstate =>
        rw [if_neg hstate] at hmax
        rw [ih num hnum (by omega)]
        omega

theorem numTickets_eq (hmax : totalTickets t ≤ intMax) : numTickets t = totalTickets t := by
  have h := sumLoop_eq htickets (List.finRange n) 0 (Int.le_refl _)
    (by simpa [totalTickets] using hmax)
  simpa [numTickets, totalTickets] using h

/-- The second loop passes over slots whose running sum stays below the winner. -/
theorem pickLoop_skip (winner : Int) (first second : List (Fin n)) (counter : Int)
    (hcounter : 0 ≤ counter) (hmax : counter + ticketSum t (first ++ second) ≤ intMax)
    (hskip : (∀ p ∈ first, (t p).state ≠ .runnable) ∨ counter + ticketSum t first < winner) :
    pickLoop t winner (first ++ second) counter =
      pickLoop t winner second (counter + ticketSum t first) := by
  induction first generalizing counter with
  | nil => simp
  | cons p first ih =>
      have hfirst := ticketSum_nonneg htickets first
      have hsecond := ticketSum_nonneg htickets second
      simp only [List.cons_append, ticketSum_cons, ticketSum_append] at hmax hskip ⊢
      rw [pickLoop]
      by_cases hstate : (t p).state = .runnable
      · have hp := htickets p hstate
        have hlow : counter + ((t p).tickets + ticketSum t first) < winner := by
          rcases hskip with hnone | hlow
          · exact absurd hstate (hnone p List.mem_cons_self)
          · rwa [if_pos hstate] at hlow
        rw [if_pos hstate] at hmax
        rw [if_neg (not_not_intro hstate), if_pos hstate,
          wrap_of_inRange (inRange_of_nonneg (by omega) (Int.le_refl _) (by omega))]
        simp only
        rw [if_pos (by omega), ih _ (by omega) (by rw [ticketSum_append]; omega)
          (Or.inr (by omega)), Int.add_assoc]
      · rw [if_neg hstate] at hmax hskip
        rw [if_pos hstate, if_neg hstate, ih counter hcounter
          (by rw [ticketSum_append]; omega)
          (hskip.imp (fun h q hq => h q (List.mem_cons_of_mem _ hq)) (by omega)), Int.zero_add]

/-- The second loop stops inside a list that holds a RUNNABLE slot and reaches
the winner. -/
theorem pickLoop_stop (winner : Int) (first second : List (Fin n)) (counter : Int)
    (hcounter : 0 ≤ counter) (hmax : counter + ticketSum t (first ++ second) ≤ intMax)
    (hrunnable : ∃ p ∈ first, (t p).state = .runnable)
    (hwinner : winner ≤ counter + ticketSum t first) :
    ∃ p ∈ first, pickLoop t winner (first ++ second) counter = some p := by
  induction first generalizing counter with
  | nil =>
      obtain ⟨p, hp, -⟩ := hrunnable
      cases hp
  | cons p first ih =>
      have hfirst := ticketSum_nonneg htickets first
      have hsecond := ticketSum_nonneg htickets second
      simp only [List.cons_append, ticketSum_cons, ticketSum_append] at hmax hwinner ⊢
      rw [pickLoop]
      by_cases hstate : (t p).state = .runnable
      · have hp := htickets p hstate
        rw [if_pos hstate] at hmax hwinner
        rw [if_neg (not_not_intro hstate),
          wrap_of_inRange (inRange_of_nonneg (by omega) (Int.le_refl _) (by omega))]
        simp only
        by_cases hlt : counter + (t p).tickets < winner
        · rw [if_pos hlt]
          -- the running sum is still short, so a later slot must have tickets
          have hlater : ∃ q ∈ first, (t q).state = .runnable := by
            by_contra hnone
            have hzero : ticketSum t first = 0 :=
              ticketSum_eq_zero fun q hq hstate => hnone ⟨q, hq, hstate⟩
            omega
          obtain ⟨q, hq, hpick⟩ := ih (counter + (t p).tickets) (by omega)
            (by rw [ticketSum_append]; omega) hlater (by omega)
          exact ⟨q, List.mem_cons_of_mem _ hq, hpick⟩
        · rw [if_neg hlt]
          exact ⟨p, List.mem_cons_self, rfl⟩
      · rw [if_neg hstate] at hmax hwinner
        rw [if_pos hstate]
        obtain ⟨q, hq, hstate'⟩ := hrunnable
        have hqfirst : q ∈ first := by
          rcases List.mem_cons.mp hq with rfl | hq
          · exact absurd hstate' hstate
          · exact hq
        obtain ⟨r, hr, hpick⟩ := ih counter hcounter (by rw [ticketSum_append]; omega)
          ⟨q, hqfirst, hstate'⟩ (by omega)
        exact ⟨r, List.mem_cons_of_mem _ hr, hpick⟩

/-- The scheduler switches to a RUNNABLE slot `p` exactly when the winner is at
most the running sum at `p` and above the sum before it, where the first
RUNNABLE slot has nothing before it. -/
theorem pick_eq_some_iff (hmax : totalTickets t ≤ intMax) {p : Fin n}
    (hp : (t p).state = .runnable) {first second : List (Fin n)}
    (hsplit : List.finRange n = first ++ p :: second) (winner : Int) :
    pick t winner = some p ↔
      (firstRunnable t = some p ∨ ticketSum t first < winner) ∧
        winner ≤ ticketSum t first + (t p).tickets := by
  have hnodup := List.nodup_finRange n
  rw [hsplit, List.nodup_append] at hnodup
  have hnotmem : p ∉ first := fun hmem => hnodup.2.2 p hmem p List.mem_cons_self rfl
  have hfirst := firstRunnable_eq_some_iff hp hsplit
  have hsum0 := ticketSum_nonneg htickets first
  have hmax' : (0 : Int) + ticketSum t (first ++ p :: second) ≤ intMax := by
    rwa [Int.zero_add, ← hsplit]
  have hwrap : wrap (ticketSum t first + (t p).tickets) =
      ticketSum t first + (t p).tickets := by
    have hrest := ticketSum_nonneg htickets second
    have hp0 := htickets p hp
    simp only [ticketSum_append, ticketSum_cons, if_pos hp] at hmax'
    exact wrap_of_inRange (inRange_of_nonneg (by omega) (Int.le_refl _) (by omega))
  rw [pick, hsplit]
  by_cases hskip : (∀ q ∈ first, (t q).state ≠ .runnable) ∨ ticketSum t first < winner
  · rw [pickLoop_skip htickets winner first (p :: second) 0 (Int.le_refl _) hmax'
      (by simpa using hskip), pickLoop, if_neg (not_not_intro hp), Int.zero_add, hwrap]
    simp only
    rw [hfirst]
    by_cases hlt : ticketSum t first + (t p).tickets < winner
    · rw [if_pos hlt]
      constructor
      · intro hpick
        -- the slots after `p` do not contain it again
        exact absurd (mem_of_pickLoop hpick) (List.nodup_cons.mp hnodup.2.1).1
      · rintro ⟨-, hle⟩
        omega
    · rw [if_neg hlt]
      exact iff_of_true rfl ⟨hskip, by omega⟩
  · obtain ⟨hrun, hle⟩ := not_or.mp hskip
    obtain ⟨q, hq, hpick⟩ := pickLoop_stop htickets winner first (p :: second) 0 (Int.le_refl _)
      hmax' (by simpa using hrun) (by omega)
    rw [hpick, hfirst]
    constructor
    · intro heq
      cases heq
      exact absurd hq hnotmem
    · rintro ⟨hskip', -⟩
      exact absurd hskip' hskip

end Exact

/-! ## Selection -/

/-- The tickets of the RUNNABLE slots up to and including `p`. -/
def prefixTickets (t : Table n) (p : Fin n) : Int :=
  ticketSum t ((List.finRange n).filter fun q => q ≤ p)

/-- The slot is the first RUNNABLE one at which the tickets reach the winner. -/
def ReachesFirst (t : Table n) (winner : Int) (p : Fin n) : Prop :=
  (t p).state = .runnable ∧ winner ≤ prefixTickets t p ∧
    ∀ q, q < p → (t q).state = .runnable → prefixTickets t q < winner

/-- The slots of the table around one of them. -/
theorem finRange_split (p : Fin n) : List.finRange n =
    (List.finRange n).filter (· < p) ++ p :: (List.finRange n).filter (p < ·) := by
  obtain ⟨first, second, hsplit⟩ := List.append_of_mem (List.mem_finRange p)
  have hsorted := List.pairwise_lt_finRange n
  rw [hsplit, List.pairwise_append, List.pairwise_cons] at hsorted
  obtain ⟨-, ⟨hafter, -⟩, hbefore⟩ := hsorted
  have hfirst : ∀ q ∈ first, q < p := fun q hq => hbefore q hq p List.mem_cons_self
  rw [hsplit]
  simp only [List.filter_append, List.filter_cons]
  rw [List.filter_eq_self.mpr (by simpa using hfirst),
    List.filter_eq_nil_iff.mpr (by simpa using fun q hq => (hafter q hq).le),
    List.filter_eq_nil_iff.mpr (by simpa using fun q hq => (hfirst q hq).le),
    List.filter_eq_self.mpr (by simpa using hafter)]
  simp

theorem prefixTickets_eq {t : Table n} {p : Fin n} (hp : (t p).state = .runnable) :
    prefixTickets t p = ticketSum t ((List.finRange n).filter (· < p)) + (t p).tickets := by
  have hfilter : (List.finRange n).filter (· ≤ p) = (List.finRange n).filter (· < p) ++ [p] := by
    have hbefore : ((List.finRange n).filter (· < p)).filter (· ≤ p) =
        (List.finRange n).filter (· < p) :=
      List.filter_eq_self.mpr (by simpa using fun q hq => le_of_lt hq)
    have hafter : ((List.finRange n).filter (p < ·)).filter (· ≤ p) = [] :=
      List.filter_eq_nil_iff.mpr (by simp)
    conv_lhs => rw [finRange_split p]
    rw [List.filter_append, List.filter_cons_of_pos (by simp), hbefore, hafter]
  rw [prefixTickets, hfilter]
  simp [hp]

section Selection

variable {t : Table n} (htickets : NonnegTickets t)
include htickets

theorem ticketSum_le_of_sublist {slots slots' : List (Fin n)} (h : slots.Sublist slots') :
    ticketSum t slots ≤ ticketSum t slots' := by
  induction h with
  | slnil => simp
  | cons p _ ih =>
      have hp := ticketSum_nonneg htickets [p]
      simp only [ticketSum_cons, ticketSum_nil] at hp ⊢
      omega
  | cons_cons p _ ih =>
      simp only [ticketSum_cons]
      omega

variable (hmax : totalTickets t ≤ intMax)
include hmax

/-- The second loop finds a slot whenever there is one to run. -/
theorem exists_pick {winner : Int} (hwinner : winner ≤ totalTickets t) {p : Fin n}
    (hp : (t p).state = .runnable) : ∃ q, pick t winner = some q := by
  obtain ⟨q, -, hq⟩ := pickLoop_stop htickets winner (List.finRange n) [] 0 (Int.le_refl _)
    (by simpa [totalTickets] using hmax) ⟨p, List.mem_finRange p, hp⟩
    (by simpa [totalTickets] using hwinner)
  exact ⟨q, by simpa [pick] using hq⟩

theorem reachesFirst_of_pick {winner : Int} {p : Fin n} (h : pick t winner = some p) :
    ReachesFirst t winner p := by
  have hp := pick_runnable h
  obtain ⟨hfirst, hle⟩ := (pick_eq_some_iff htickets hmax hp (finRange_split p) winner).mp h
  refine ⟨hp, by rwa [prefixTickets_eq hp], fun q hq hstate => ?_⟩
  rcases hfirst with hfirst | hlt
  · have hnone := (firstRunnable_eq_some_iff hp (finRange_split p)).mp hfirst q (by simpa using hq)
    exact absurd hstate hnone
  · apply Int.lt_of_le_of_lt _ hlt
    apply ticketSum_le_of_sublist htickets
    apply List.monotone_filter_right
    intro r hr
    simp only [decide_eq_true_eq] at hr ⊢
    exact lt_of_le_of_lt hr hq

theorem pick_iff_reachesFirst {winner : Int} (hwinner : winner ≤ totalTickets t) (p : Fin n) :
    pick t winner = some p ↔ ReachesFirst t winner p := by
  refine ⟨reachesFirst_of_pick htickets hmax, fun h => ?_⟩
  obtain ⟨q, hq⟩ := exists_pick htickets hmax hwinner h.1
  have hreach := reachesFirst_of_pick htickets hmax hq
  -- two slots that reach the winner first are the same
  rcases lt_trichotomy p q with hlt | rfl | hlt
  · have := hreach.2.2 p hlt h.1
    have := h.2.1
    omega
  · exact hq
  · have := h.2.2 q hlt hreach.1
    have := hreach.2.1
    omega

theorem tickets_pos_of_pick {winner : Int} (hpos : 1 ≤ winner) {p : Fin n}
    (h : pick t winner = some p) : 0 < (t p).tickets := by
  have hp := pick_runnable h
  obtain ⟨hfirst, hle⟩ := (pick_eq_some_iff htickets hmax hp (finRange_split p) winner).mp h
  rcases hfirst with hfirst | hlt
  · have hzero := ticketSum_eq_zero ((firstRunnable_eq_some_iff hp (finRange_split p)).mp hfirst)
    omega
  · omega

/-- What the second loop of `scheduler` selects. -/
theorem pick_selects :
    (∀ winner, 0 ≤ winner → winner ≤ totalTickets t →
      ((∃ p, pick t winner = some p) ↔ ∃ p, (t p).state = .runnable) ∧
      (∀ p, pick t winner = some p ↔ ReachesFirst t winner p) ∧
      (1 ≤ winner → ∀ p, pick t winner = some p → 0 < (t p).tickets)) ∧
    ∀ winner winner' p p', 0 ≤ winner → winner ≤ winner' → winner' ≤ totalTickets t →
      pick t winner = some p → pick t winner' = some p' → p ≤ p' := by
  refine ⟨fun winner _ hwinner => ⟨⟨?_, ?_⟩, ?_, ?_⟩, ?_⟩
  · rintro ⟨p, hp⟩
    exact ⟨p, pick_runnable hp⟩
  · rintro ⟨p, hp⟩
    exact exists_pick htickets hmax hwinner hp
  · exact pick_iff_reachesFirst htickets hmax hwinner
  · exact fun hpos p => tickets_pos_of_pick htickets hmax hpos
  · intro winner winner' p p' _ hle _ hp hp'
    by_contra hlt
    have hbefore := (reachesFirst_of_pick htickets hmax hp).2.2 p' (not_le.mp hlt)
      (pick_runnable hp')
    have hreach := (reachesFirst_of_pick htickets hmax hp').2.1
    omega

end Selection

/-! ## Fairness -/

/-- The values `random_at_most(num_tickets)` can return. -/
def possibleWinners (t : Table n) : Finset Int :=
  (Finset.range (numTickets t + 1).toNat).image Int.ofNat

/-- The winners for which the scheduler switches to `p`. -/
def winnersOf (t : Table n) (p : Fin n) : Finset Int :=
  (possibleWinners t).filter fun winner => pick t winner = some p

/-- `p` is selected by a share of the possible winners equal to its share of
the tickets. -/
def Fair (t : Table n) (p : Fin n) : Prop :=
  ((winnersOf t p).card : Int) * totalTickets t =
    (t p).tickets * ((possibleWinners t).card : Int)

/-- A table with a lottery to run: no negative tickets, at least one ticket, and
a number of tickets that is an `int`. -/
structure LotteryTable (t : Table n) : Prop where
  nonneg : NonnegTickets t
  pos : 0 < totalTickets t
  le : totalTickets t ≤ intMax

theorem mem_possibleWinners {t : Table n} {winner : Int} :
    winner ∈ possibleWinners t ↔ 0 ≤ winner ∧ winner ≤ numTickets t := by
  simp only [possibleWinners, Finset.mem_image, Finset.mem_range]
  constructor
  · rintro ⟨w, hw, rfl⟩
    simp only [Int.ofNat_eq_natCast]
    omega
  · rintro ⟨hnonneg, hle⟩
    exact ⟨winner.toNat, by omega, Int.toNat_of_nonneg hnonneg⟩

section Fairness

variable {t : Table n} (h : LotteryTable t) {p : Fin n} (hp : (t p).state = .runnable)
include h

theorem card_possibleWinners : ((possibleWinners t).card : Int) = totalTickets t + 1 := by
  have hpos := h.pos
  rw [possibleWinners, Finset.card_image_of_injective _ fun _ _ => Int.ofNat.inj,
    Finset.card_range, numTickets_eq h.nonneg h.le]
  omega

include hp in
/-- The first RUNNABLE slot has one winner more than it has tickets, every
other one exactly as many. -/
theorem card_winnersOf : ((winnersOf t p).card : Int) =
    (t p).tickets + if firstRunnable t = some p then 1 else 0 := by
  obtain ⟨first, second, hsplit⟩ := List.append_of_mem (List.mem_finRange p)
  have hpick := pick_eq_some_iff h.nonneg h.le hp hsplit
  have hfirst := ticketSum_nonneg h.nonneg first
  have hsecond := ticketSum_nonneg h.nonneg second
  have htickets := h.nonneg p hp
  have htotal : totalTickets t = ticketSum t first + ((t p).tickets + ticketSum t second) := by
    rw [totalTickets, hsplit, ticketSum_append, ticketSum_cons, if_pos hp]
  split
  next hleads =>
    have hzero : ticketSum t first = 0 :=
      ticketSum_eq_zero ((firstRunnable_eq_some_iff hp hsplit).mp hleads)
    have hset : winnersOf t p = Finset.Icc 0 (t p).tickets := by
      ext winner
      simp only [winnersOf, mem_possibleWinners, Finset.mem_filter, Finset.mem_Icc, hpick, hleads,
        true_or, true_and, numTickets_eq h.nonneg h.le, htotal, hzero]
      omega
    rw [hset, Int.card_Icc]
    omega
  next hleads =>
    have hset : winnersOf t p =
        Finset.Ioc (ticketSum t first) (ticketSum t first + (t p).tickets) := by
      ext winner
      simp only [winnersOf, mem_possibleWinners, Finset.mem_filter, Finset.mem_Ioc,
        hpick, hleads, false_or, numTickets_eq h.nonneg h.le, htotal]
      omega
    rw [hset, Int.card_Ioc]
    omega

include hp in
/-- The lottery is fair to a RUNNABLE process exactly when it comes first in the
table and has all the tickets, or comes later and has none. -/
theorem fair_iff : Fair t p ↔
    (firstRunnable t = some p ∧ (t p).tickets = totalTickets t) ∨
      (firstRunnable t ≠ some p ∧ (t p).tickets = 0) := by
  rw [Fair, card_possibleWinners h, card_winnersOf h hp]
  have hpos := h.pos
  split
  next hleads =>
    constructor
    · intro heq
      exact Or.inl ⟨hleads, by linarith⟩
    · rintro (⟨-, heq⟩ | ⟨hne, -⟩)
      · rw [heq]
        ring
      · exact absurd hleads hne
  next hleads =>
    constructor
    · intro heq
      exact Or.inr ⟨hleads, by linarith⟩
    · rintro (⟨heq, -⟩ | ⟨-, heq⟩)
      · exact absurd heq hleads
      · rw [heq]
        ring

end Fairness

/-- The two children of `lotterytest`, RUNNABLE with 80 and 20 tickets. -/
def lotterytestTable : Table 2
  | 0 => { Proc.zero 2 with state := .runnable, pid := 4, tickets := 80 }
  | 1 => { Proc.zero 2 with state := .runnable, pid := 5, tickets := 20 }

theorem lotterytestTable_nonneg : NonnegTickets lotterytestTable := by
  intro p
  fin_cases p <;> decide

theorem pick_selects_lotterytest :
    NonnegTickets lotterytestTable ∧ totalTickets lotterytestTable ≤ intMax ∧
      (∀ p, pick lotterytestTable 81 = some p ↔ ReachesFirst lotterytestTable 81 p) :=
  ⟨lotterytestTable_nonneg, by decide, ((pick_selects lotterytestTable_nonneg (by decide)).1 81
    (by decide) (by decide)).2.1⟩

theorem lotterytest_unfair : LotteryTable lotterytestTable ∧
    (lotterytestTable 0).state = .runnable ∧ ¬ Fair lotterytestTable 0 := by
  have htable : LotteryTable lotterytestTable := ⟨lotterytestTable_nonneg, by decide, by decide⟩
  refine ⟨htable, rfl, ?_⟩
  rw [Fair, card_possibleWinners htable, card_winnersOf htable rfl]
  decide

/-- A RUNNABLE process alone in the table. -/
def soloTable : Table 1 := fun _ =>
  { Proc.zero 1 with state := .runnable, pid := 1, tickets := magicTicketNum }

theorem fair_soloTable : LotteryTable soloTable ∧ Fair soloTable 0 := by
  have htable : LotteryTable soloTable := ⟨fun _ _ => by norm_num [soloTable, magicTicketNum],
    by decide, by decide⟩
  exact ⟨htable, (fair_iff htable rfl).mpr (Or.inl ⟨rfl, rfl⟩)⟩

end OsCourse.Kernel
