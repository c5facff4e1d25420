import Mathlib.Data.List.Basic

/-! # Runs of partial step functions

A system is given by a step function: from a state and an action it computes
the next state and the events the step emits, or nothing when the action is
not enabled. A run may use any enabled actions in any order; `Reach` collects
the configurations of all runs whose steps meet a side condition, each with
the events emitted so far.
-/

namespace Transition

variable {σ α ε : Type*} (step : σ → α → Option (σ × List ε))

/-- The states reached from `init` by steps meeting `ok`, with the history of
emitted events. -/
inductive Reach (ok : σ → α → Prop) (init : σ) : List ε → σ → Prop
  | start : Reach ok init [] init
  | step {history : List ε} {s t : σ} {a : α} {events : List ε}
      (prior : Reach ok init history s) (hok : ok s a) (hstep : step s a = some (t, events)) :
      Reach ok init (history ++ events) t

/-- The side condition met by every step. -/
def anyStep : σ → α → Prop := fun _ _ => True

/-- Execute a list of actions. -/
def run (s : σ) : List α → Option (σ × List ε)
  | [] => some (s, [])
  | a :: actions =>
      (step s a).bind fun r => (run r.1 actions).map fun last => (last.1, r.2 ++ last.2)

/-- Every step of the execution meets `ok`. -/
def Admitted (ok : σ → α → Prop) (s : σ) : List α → Prop
  | [] => True
  | a :: actions => ok s a ∧ ∀ r ∈ step s a, Admitted ok r.1 actions

instance decidableAdmitted (ok : σ → α → Prop) [∀ s a, Decidable (ok s a)] :
    ∀ (s : σ) (actions : List α), Decidable (Admitted step ok s actions)
  | _, [] => .isTrue trivial
  | s, a :: actions =>
      have := fun r : σ × List ε => decidableAdmitted ok r.1 actions
      inferInstanceAs (Decidable (ok s a ∧ ∀ r ∈ step s a, Admitted step ok r.1 actions))

variable {step} {ok : σ → α → Prop} {init : σ}

/-- A relation between history and state that holds at the start and is
preserved by every admitted step holds throughout every run. -/
theorem Reach.invariant {inv : List ε → σ → Prop} (hinit : inv [] init)
    (hstep : ∀ history s a t events, inv history s → ok s a →
      step s a = some (t, events) → inv (history ++ events) t)
    {history : List ε} {s : σ} (h : Reach step ok init history s) : inv history s := by
  induction h with
  | start => exact hinit
  | step _ hok hnext ih => exact hstep _ _ _ _ _ ih hok hnext

/-- A run of one system is a run of another when every step is one of the other
system or changes nothing there. -/
theorem Reach.simulate {σ' α' ε' : Type*} {step' : σ' → α' → Option (σ' × List ε')}
    {ok' : σ' → α' → Prop} (f : σ → σ') (g : ε → ε')
    (hsim : ∀ s a t events, ok s a → step s a = some (t, events) →
      (f t = f s ∧ events = []) ∨
        ∃ a', ok' (f s) a' ∧ step' (f s) a' = some (f t, events.map g))
    {history : List ε} {s : σ} (h : Reach step ok init history s) :
    Reach step' ok' (f init) (history.map g) (f s) := by
  induction h with
  | start => exact .start
  | step _ hok hnext ih =>
      rw [List.map_append]
      rcases hsim _ _ _ _ hok hnext with ⟨hsame, rfl⟩ | ⟨a', hok', hstep'⟩
      · rw [hsame, List.map_nil, List.append_nil]
        exact ih
      · exact .step ih hok' hstep'

theorem Reach.mono {ok' : σ → α → Prop} (hmono : ∀ s a, ok s a → ok' s a) {history : List ε}
    {s : σ} (h : Reach step ok init history s) : Reach step ok' init history s := by
  induction h with
  | start => exact .start
  | step _ hok hnext ih => exact .step ih (hmono _ _ hok) hnext

/-- A step that emits nothing leaves the rest of the run. -/
theorem run_of_silent {s t : σ} {a : α} {actions : List α} (h : step s a = some (t, [])) :
    run step s (a :: actions) = run step t actions := by
  simp [run, h]

theorem run_append {s t u : σ} {actions more : List α} {events last : List ε}
    (h : run step s actions = some (t, events)) (hmore : run step t more = some (u, last)) :
    run step s (actions ++ more) = some (u, events ++ last) := by
  induction actions generalizing s events with
  | nil =>
      simp only [run, Option.some.injEq, Prod.mk.injEq] at h
      obtain ⟨rfl, rfl⟩ := h
      exact hmore
  | cons a actions ih =>
      simp only [run, Option.bind_eq_some_iff, Option.map_eq_some_iff] at h
      obtain ⟨⟨middle, first⟩, hfirst, ⟨final, rest⟩, hrest, heq⟩ := h
      simp only [Prod.mk.injEq] at heq
      obtain ⟨rfl, rfl⟩ := heq
      simp [run, hfirst, ih hrest]

/-- A measure that every step decreases bounds the length of a run. -/
theorem length_add_le_of_run (inv : σ → Prop) (cost : σ → Nat)
    (hstep : ∀ s a t events, inv s → step s a = some (t, events) → inv t ∧ cost t < cost s)
    {s t : σ} (hinv : inv s) {actions : List α} {events : List ε}
    (h : run step s actions = some (t, events)) : actions.length + cost t ≤ cost s := by
  induction actions generalizing s events with
  | nil =>
      simp only [run, Option.some.injEq, Prod.mk.injEq] at h
      obtain ⟨rfl, rfl⟩ := h
      simp
  | cons a actions ih =>
      simp only [run, Option.bind_eq_some_iff, Option.map_eq_some_iff] at h
      obtain ⟨⟨middle, first⟩, hfirst, ⟨last, rest⟩, hrest, heq⟩ := h
      simp only [Prod.mk.injEq] at heq
      obtain ⟨rfl, rfl⟩ := heq
      obtain ⟨hmiddle, hlt⟩ := hstep _ _ _ _ hinv hfirst
      have hlength := ih hmiddle hrest
      simp only [List.length_cons]
      omega

/-- A run continues any history that leads to its starting state. -/
theorem Reach.append_run {history : List ε} {s : σ}
    (h : Reach step ok init history s) (actions : List α) (hok : Admitted step ok s actions)
    {t : σ} {events : List ε} (hrun : run step s actions = some (t, events)) :
    Reach step ok init (history ++ events) t := by
  induction actions generalizing history s events with
  | nil =>
      simp only [run, Option.some.injEq, Prod.mk.injEq] at hrun
      obtain ⟨rfl, rfl⟩ := hrun
      simpa using h
  | cons a actions ih =>
      simp only [run, Option.bind_eq_some_iff, Option.map_eq_some_iff] at hrun
      obtain ⟨⟨middle, first⟩, hfirst, ⟨last, rest⟩, hrest, heq⟩ := hrun
      simp only [Prod.mk.injEq] at heq
      obtain ⟨rfl, rfl⟩ := heq
      rw [← List.append_assoc]
      exact ih (.step h hok.1 hfirst) (hok.2 _ hfirst) hrest

/-- The last configuration of an admitted run that does not get stuck. -/
theorem Reach.of_isSome (actions : List α) (hok : Admitted step ok init actions)
    (h : (run step init actions).isSome) :
    Reach step ok init ((run step init actions).get h).2 ((run step init actions).get h).1 :=
  Reach.append_run .start actions hok (Option.some_get h).symm

theorem admitted_of_forall {actions : List α} (h : ∀ s, ∀ a ∈ actions, ok s a) (s : σ) :
    Admitted step ok s actions := by
  induction actions generalizing s with
  | nil => trivial
  | cons a actions ih =>
      refine ⟨h s a List.mem_cons_self, fun r _ => ih (fun t b hb => ?_) r.1⟩
      exact h t b (List.mem_cons_of_mem _ hb)

theorem admitted_anyStep (s : σ) (actions : List α) : Admitted step anyStep s actions := by
  induction actions generalizing s with
  | nil => trivial
  | cons a actions ih => exact ⟨trivial, fun r _ => ih r.1⟩

end Transition
