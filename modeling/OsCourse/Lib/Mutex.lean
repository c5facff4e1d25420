import Mathlib.Logic.Basic

/-! # Locks and critical sections

A lock names the party that has it, and each party knows whether it is inside
the code that the lock guards. The two agree in every state when every step of
a party that enters this code finds the lock free and takes it, and every step
that leaves the code gives it back.
-/

namespace Mutex

variable {α : Type*} {lock lock' : Option α} {holds holds' : α → Prop} {a b : α}

/-- The lock is with the party that is inside its code. -/
def Guards (lock : Option α) (holds : α → Prop) : Prop := ∀ a, lock = some a ↔ holds a

/-- What a step of one party does to the lock and to its own place. -/
inductive Pass (lock lock' : Option α) (holds holds' : α → Prop) (a : α) : Prop
  | acquire (hfree : lock = none) (hlock : lock' = some a) (ha : holds' a)
  | keep (hlock : lock' = lock) (ha : holds' a ↔ holds a)
  | release (hold : holds a) (hlock : lock' = none) (ha : ¬ holds' a)

namespace Guards

variable (h : Guards lock holds)
include h

/-- At most one party is inside. -/
theorem exclusive (ha : holds a) (hb : holds b) : a = b :=
  Option.some.inj (((h a).mpr ha).symm.trans ((h b).mpr hb))

theorem not_of_free (hfree : lock = none) (a : α) : ¬ holds a := by
  rw [← h a, hfree]
  exact nofun

theorem not_of_ne (ha : holds a) (hne : b ≠ a) : ¬ holds b :=
  fun hb => hne (h.exclusive hb ha)

theorem congr (hholds : ∀ a, holds' a ↔ holds a) : Guards lock holds' :=
  fun a => (h a).trans (hholds a).symm

theorem pass (hpass : Pass lock lock' holds holds' a)
    (hothers : ∀ b, b ≠ a → (holds' b ↔ holds b)) : Guards lock' holds' := by
  intro b
  by_cases hba : b = a
  · subst hba
    cases hpass with
    | acquire hfree hlock hb => simp [hlock, hb]
    | keep hlock hb => rw [hlock, hb, h b]
    | release hold hlock hb => simp [hlock, hb]
  · rw [hothers b hba, ← h b]
    cases hpass with
    | acquire hfree hlock hb => simp [hfree, hlock, Ne.symm hba]
    | keep hlock hb => rw [hlock]
    | release hold hlock hb =>
        rw [hlock, (h a).mpr hold]
        simp [Ne.symm hba]

end Guards

end Mutex
