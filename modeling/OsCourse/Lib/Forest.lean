import Mathlib.Logic.Relation

/-! # Forests of parent pointers

Every node has at most one parent. `Leads` follows the pointers any number of
times; what holds of it when pointers are written is derived from what holds of
each pointer.
-/

namespace Forest

open Relation

variable {α : Type*}

/-- `b` is the parent of `a`. -/
def Link (parent : α → Option α) (a b : α) : Prop := parent a = some b

/-- The pointers lead from `a` to `b`. -/
abbrev Leads (parent : α → Option α) : α → α → Prop := ReflTransGen (Link parent)

variable {parent parent' : α → Option α} {a r : α}

/-- A node leads to `r` as long as every pointer on its way is kept or set to `r`. The
nodes on the way are known to be in a set that the pointers do not leave. -/
theorem Leads.redirect (P : α → Prop) (hclosed : ∀ x y, P x → parent x = some y → P y)
    (hkeep : ∀ x y, P x → parent x = some y → parent' x = some y ∨ parent' x = some r)
    (h : Leads parent a r) (ha : P a) : Leads parent' a r := by
  induction h using ReflTransGen.head_induction_on with
  | refl => exact .refl
  | @head x y hlink _ ih =>
      rcases hkeep x y ha hlink with hsame | hroot
      · exact .head hsame (ih (hclosed x y ha hlink))
      · exact .single hroot

theorem Leads.mono (hkeep : ∀ x y, parent x = some y → parent' x = some y)
    (h : Leads parent a r) : Leads parent' a r :=
  ReflTransGen.mono (fun x y hlink => hkeep x y hlink) a r h

/-- A node that leads to a node without a parent is on no cycle. -/
theorem Leads.not_cycle (hroot : parent r = none) (h : Leads parent a r) :
    ¬ TransGen (Link parent) a a := by
  induction h using ReflTransGen.head_induction_on with
  | refl =>
      intro hcycle
      obtain ⟨b, hlink, -⟩ := TransGen.head'_iff.mp hcycle
      rw [Link, hroot] at hlink
      cases hlink
  | @head x y hlink _ ih =>
      intro hcycle
      obtain ⟨z, hlink', hback⟩ := TransGen.head'_iff.mp hcycle
      -- there is only one parent to go on with
      have hsame : y = z := Option.some.inj (hlink.symm.trans hlink')
      exact ih (TransGen.tail' (hsame ▸ hback) hlink)

end Forest
