import Mathlib.Logic.Function.Basic

/-! # Lost updates

A register holds a list. A thread adds an element with two accesses: it loads
the register, and later stores the list it has loaded with the element in
front. What others have stored in between is not in the register any more,
though a thread that loaded it in time brings it back.
-/

namespace LostUpdates

variable {τ α : Type*}

inductive Access (τ α : Type*)
  /-- the thread loads the register -/
  | load (t : τ)
  /-- the thread stores what it has loaded, with an element in front -/
  | store (t : τ) (a : α)
  deriving DecidableEq

/-- The register, and what each thread has loaded last. -/
structure Register (τ α : Type*) where
  content : List α
  loaded : τ → List α

/-- The elements stored, newest first; the list has the newest access first. -/
def pushed : List (Access τ α) → List α
  | [] => []
  | .load _ :: before => pushed before
  | .store _ a :: before => a :: pushed before

variable [DecidableEq τ]

def Register.access (r : Register τ α) : Access τ α → Register τ α
  | .load t => { r with loaded := Function.update r.loaded t r.content }
  | .store t a => { r with content := a :: r.loaded t }

/-- The register after some accesses, the newest access first. -/
def replay : List (Access τ α) → Register τ α
  | [] => ⟨[], fun _ => []⟩
  | a :: before => (replay before).access a

/-- The elements that survive: the last one stored, then those that survive of
what its thread had loaded. With a thread given, the search is on its way back
to the last load of this thread. -/
def survivors : Option τ → List (Access τ α) → List α
  | _, [] => []
  | none, .load _ :: before => survivors none before
  | none, .store t a :: before => a :: survivors (some t) before
  | some t, .load u :: before => survivors (if u = t then none else some t) before
  | some t, .store _ _ :: before => survivors (some t) before

/-- The elements stored since the thread last loaded the register. -/
def storedSince (t : τ) : List (Access τ α) → List α
  | [] => []
  | .load u :: before => if u = t then [] else storedSince t before
  | .store _ a :: before => a :: storedSince t before

/-- No thread stores what another store has made old. -/
def Exclusive : List (Access τ α) → Prop
  | [] => True
  | .load _ :: before => Exclusive before
  | .store t _ :: before => storedSince t before = [] ∧ Exclusive before

instance decidableExclusive [DecidableEq α] :
    ∀ accesses : List (Access τ α), Decidable (Exclusive accesses)
  | [] => .isTrue trivial
  | .load _ :: before => decidableExclusive before
  | .store t _ :: before =>
      have := decidableExclusive before
      inferInstanceAs (Decidable (storedSince t before = [] ∧ Exclusive before))

/-- The register holds the survivors, and a thread has loaded those of its load. -/
theorem replay_eq (accesses : List (Access τ α)) :
    (replay accesses).content = survivors none accesses ∧
      ∀ t, (replay accesses).loaded t = survivors (some t) accesses := by
  induction accesses with
  | nil => exact ⟨rfl, fun _ => rfl⟩
  | cons access before ih =>
      obtain ⟨hcontent, hloaded⟩ := ih
      cases access with
      | load u =>
          refine ⟨hcontent, fun t => ?_⟩
          by_cases hut : u = t
          · subst hut
            simp [replay, Register.access, survivors, hcontent]
          · simp [replay, Register.access, survivors, hut, Ne.symm hut, hloaded]
      | store u a =>
          refine ⟨?_, hloaded⟩
          simp [replay, Register.access, survivors, hloaded]

/-- The survivors keep the order in which they were stored. -/
theorem survivors_sublist (who : Option τ) (accesses : List (Access τ α)) :
    (survivors who accesses).Sublist (pushed accesses) := by
  induction accesses generalizing who with
  | nil => cases who <;> exact List.Sublist.slnil
  | cons access before ih =>
      cases access with
      | load u =>
          cases who with
          | none => exact ih none
          | some t => exact ih _
      | store u a =>
          cases who with
          | none => exact (ih (some u)).cons_cons a
          | some t => exact (ih (some t)).cons a

/-- What was stored since the load is not among what the thread has loaded. -/
theorem length_survivors_add_le (t : τ) (accesses : List (Access τ α)) :
    (survivors (some t) accesses).length + (storedSince t accesses).length ≤
      (pushed accesses).length := by
  induction accesses with
  | nil => exact Nat.le_refl 0
  | cons access before ih =>
      cases access with
      | load u =>
          by_cases hut : u = t
          · simpa [survivors, storedSince, pushed, hut] using
              (survivors_sublist none before).length_le
          · simpa [survivors, storedSince, pushed, hut] using ih
      | store u a =>
          simp only [survivors, storedSince, pushed, List.length_cons]
          exact Nat.succ_le_succ ih

/-- One overlap, and from then on every version of the list lacks an element. -/
theorem length_survivors_lt (who : Option τ) {accesses : List (Access τ α)}
    (h : ¬ Exclusive accesses) : (survivors who accesses).length < (pushed accesses).length := by
  induction accesses generalizing who with
  | nil => exact absurd trivial h
  | cons access before ih =>
      cases access with
      | load u =>
          cases who with
          | none => exact ih none h
          | some t => exact ih _ h
      | store u a =>
          cases who with
          | none =>
              apply Nat.succ_lt_succ
              by_cases hbefore : Exclusive before
              · have hsince : storedSince u before ≠ [] := fun heq => h ⟨heq, hbefore⟩
                have hpos := List.length_pos_iff.mpr hsince
                have hle := length_survivors_add_le u before
                omega
              · exact ih (some u) hbefore
          | some t =>
              exact Nat.lt_succ_of_le (survivors_sublist (some t) before).length_le

theorem Exclusive.survivors_eq {accesses : List (Access τ α)} (h : Exclusive accesses) :
    survivors none accesses = pushed accesses ∧
      ∀ t, storedSince t accesses ++ survivors (some t) accesses = pushed accesses := by
  induction accesses with
  | nil => exact ⟨rfl, fun _ => rfl⟩
  | cons access before ih =>
      cases access with
      | load u =>
          obtain ⟨hnone, hsome⟩ := ih h
          refine ⟨hnone, fun t => ?_⟩
          by_cases hut : u = t
          · simp [storedSince, survivors, pushed, hut, hnone]
          · simp [storedSince, survivors, pushed, hut, hsome]
      | store u a =>
          obtain ⟨hsince, hbefore⟩ := h
          obtain ⟨-, hsome⟩ := ih hbefore
          refine ⟨?_, fun t => congrArg (a :: ·) (hsome t)⟩
          have hu := hsome u
          rw [hsince, List.nil_append] at hu
          exact congrArg (a :: ·) hu

/-- Nothing is lost exactly if no two pushes overlap. -/
theorem survivors_eq_pushed_iff (accesses : List (Access τ α)) :
    survivors none accesses = pushed accesses ↔ Exclusive accesses := by
  constructor
  · intro heq
    by_contra hoverlap
    exact absurd (congrArg List.length heq) (Nat.ne_of_lt (length_survivors_lt none hoverlap))
  · intro h
    exact h.survivors_eq.1

end LostUpdates
