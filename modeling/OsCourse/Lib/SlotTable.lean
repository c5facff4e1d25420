import Mathlib.Data.List.Basic

/-! # Slot tables with lowest-free allocation

A finite table of numbered slots, every slot beyond the stored ones being
free. An allocation fills the lowest free slot. Tables are compared by their
lookups, so trailing free slots do not matter.
-/

/-- A table of numbered slots. -/
structure SlotTable (α : Type*) where
  slots : List (Option α)
  deriving DecidableEq, Repr

namespace SlotTable

variable {α : Type*} (t : SlotTable α)

/-- The content of a slot. -/
def get (i : Nat) : Option α := t.slots.getD i none

/-- Free a slot. -/
def clear (i : Nat) : SlotTable α := ⟨t.slots.set i none⟩

/-- The lowest free slot. -/
def lowest : Nat := t.slots.findIdx Option.isNone

/-- Fill the lowest free slot. -/
def fill (x : α) : SlotTable α :=
  ⟨t.slots.take t.lowest ++ some x :: t.slots.drop (t.lowest + 1)⟩

@[simp] theorem get_clear (i j : Nat) :
    (t.clear i).get j = if j = i then none else t.get j := by
  unfold get clear
  rw [List.getD_eq_getElem?_getD, List.getD_eq_getElem?_getD, List.getElem?_set]
  by_cases heq : i = j
  · subst heq
    by_cases hlt : i < t.slots.length <;> simp [hlt]
  · simp [heq, Ne.symm heq]

theorem lowest_le : t.lowest ≤ t.slots.length := List.findIdx_le_length

@[simp] theorem get_fill (x : α) (j : Nat) :
    (t.fill x).get j = if j = t.lowest then some x else t.get j := by
  have hle := t.lowest_le
  have hlen : (t.slots.take t.lowest).length = t.lowest := by
    rw [List.length_take]
    omega
  unfold get fill
  rw [List.getD_eq_getElem?_getD, List.getD_eq_getElem?_getD]
  rcases Nat.lt_trichotomy j t.lowest with hlt | heq | hgt
  · rw [List.getElem?_append_left (by omega), List.getElem?_take_of_lt hlt,
      if_neg (by omega)]
  · subst heq
    rw [List.getElem?_append_right (by omega), hlen]
    simp
  · obtain ⟨k, rfl⟩ : ∃ k, j = t.lowest + 1 + k := ⟨j - (t.lowest + 1), by omega⟩
    rw [List.getElem?_append_right (by omega), hlen, if_neg (by omega),
      show t.lowest + 1 + k - t.lowest = k + 1 by omega, List.getElem?_cons_succ,
      List.getElem?_drop]

theorem get_lowest : t.get t.lowest = none := by
  unfold get
  rw [List.getD_eq_getElem?_getD]
  by_cases hlt : t.lowest < t.slots.length
  · have hnone := List.findIdx_getElem (p := Option.isNone) (w := hlt)
    rw [List.getElem?_eq_getElem hlt, Option.getD_some]
    exact Option.isNone_iff_eq_none.mp hnone
  · rw [List.getElem?_eq_none (by omega)]
    rfl

theorem get_ne_none_of_lt {i : Nat} (hi : i < t.lowest) : t.get i ≠ none := by
  have hlt : i < t.slots.length := Nat.lt_of_lt_of_le hi t.lowest_le
  have hsome := List.not_of_lt_findIdx (p := Option.isNone) hi
  unfold get
  rw [List.getD_eq_getElem?_getD, List.getElem?_eq_getElem hlt]
  intro hnone
  rw [Option.getD_some] at hnone
  rw [hnone] at hsome
  cases hsome

/-- A free slot below which all slots are taken is the lowest one. -/
theorem lowest_eq {i : Nat} (hfree : t.get i = none) (htaken : ∀ j < i, t.get j ≠ none) :
    t.lowest = i := by
  rcases Nat.lt_trichotomy t.lowest i with hlt | heq | hgt
  · exact absurd t.get_lowest (htaken _ hlt)
  · exact heq
  · exact absurd hfree (t.get_ne_none_of_lt hgt)

end SlotTable
