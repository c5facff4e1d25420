import Mathlib.Data.Finset.Insert
import Mathlib.Data.Finset.Erase

/-! # Resources that are taken and given back

A log records what an allocator hands out and gets back; it is kept when only what
is not in use is handed out and only what is in use comes back. Beside it, owners
hold what is in use, each resource one owner at a time.
-/

namespace Ledger

variable {α ι : Type*}

inductive Entry (α : Type*)
  | alloc (a : α)
  | free (a : α)
  deriving DecidableEq

variable [DecidableEq α]

/-- The log is kept, and `used` is what is in use at its end. -/
inductive Kept : List (Entry α) → Finset α → Prop
  | nil : Kept [] ∅
  | alloc {log : List (Entry α)} {used : Finset α} {a : α} (h : Kept log used) (ha : a ∉ used) :
      Kept (log ++ [.alloc a]) (insert a used)
  | free {log : List (Entry α)} {used : Finset α} {a : α} (h : Kept log used) (ha : a ∈ used) :
      Kept (log ++ [.free a]) (used.erase a)

/-- A resource has come back as often as it was handed out, or once less. -/
theorem Kept.count {log : List (Entry α)} {used : Finset α} (h : Kept log used) (a : α) :
    log.count (.alloc a) = log.count (.free a) + if a ∈ used then 1 else 0 := by
  induction h with
  | nil => simp
  | @alloc log used b _ hb ih =>
      by_cases hab : b = a
      · subst hab
        simp [ih, hb]
      · simp [ih, hab, Ne.symm hab]
  | @free log used b _ hb ih =>
      by_cases hab : b = a
      · subst hab
        simp [ih, hb]
      · simp [ih, hab, Ne.symm hab]

/-- What is in use is what the owners hold, each resource held by one of them. -/
structure Owns (holding : ι → Option α) (used : Finset α) : Prop where
  mem : ∀ a, a ∈ used ↔ ∃ i, holding i = some a
  alone : ∀ i j a, holding i = some a → holding j = some a → i = j

namespace Owns

variable {holding : ι → Option α} {used : Finset α} {a : α} {i : ι}

omit [DecidableEq α] in
theorem none : Owns (fun _ : ι => (.none : Option α)) ∅ :=
  ⟨by simp, by simp⟩

variable [DecidableEq ι] (h : Owns holding used)
include h

/-- An owner takes what nobody holds. -/
theorem take (hi : holding i = .none) (ha : a ∉ used) :
    Owns (Function.update holding i (some a)) (insert a used) := by
  have hfree : ∀ j, holding j ≠ some a := fun j hj => ha ((h.mem a).mpr ⟨j, hj⟩)
  refine ⟨fun b => ?_, fun j k b hj hk => ?_⟩
  · rw [Finset.mem_insert, h.mem]
    constructor
    · rintro (rfl | ⟨j, hj⟩)
      · exact ⟨i, by simp⟩
      · refine ⟨j, ?_⟩
        rw [Function.update_of_ne, hj]
        rintro rfl
        cases hi.symm.trans hj
    · rintro ⟨j, hj⟩
      rw [Function.update_apply] at hj
      split at hj
      next => exact .inl (Option.some.inj hj).symm
      next => exact .inr ⟨j, hj⟩
  · rw [Function.update_apply] at hj hk
    split at hj <;> split at hk
    next hji hki => rw [hji, hki]
    next => cases hj; exact absurd hk (hfree k)
    next => cases hk; exact absurd hj (hfree j)
    next => exact h.alone j k b hj hk

/-- An owner gives back what it holds. -/
theorem give (hi : holding i = some a) :
    Owns (Function.update holding i .none) (used.erase a) := by
  refine ⟨fun b => ?_, fun j k b hj hk => ?_⟩
  · rw [Finset.mem_erase, h.mem]
    constructor
    · rintro ⟨hba, j, hj⟩
      refine ⟨j, ?_⟩
      rw [Function.update_of_ne, hj]
      rintro rfl
      exact hba (Option.some.inj (hj.symm.trans hi))
    · rintro ⟨j, hj⟩
      rw [Function.update_apply] at hj
      split at hj
      next => cases hj
      next hji =>
        refine ⟨?_, j, hj⟩
        rintro rfl
        exact hji (h.alone j i b hj hi)
  · rw [Function.update_apply] at hj hk
    split at hj
    next => cases hj
    next =>
      split at hk
      next => cases hk
      next => exact h.alone j k b hj hk

end Owns

end Ledger
