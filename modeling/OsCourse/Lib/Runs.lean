import Mathlib.Algebra.GroupWithZero.Nat
import Mathlib.Data.List.SplitBy

/-! # Runs of a list

`List.splitBy` cuts a list between neighbours that are not related. Here it is
computed from the front, as a loop over the list meets its runs.
-/

namespace Runs

variable {α : Type*} {r : α → α → Bool}

theorem splitBy_cons_of_not {a b : α} (hab : r a b = false) (l : List α) :
    (a :: b :: l).splitBy r = [a] :: (b :: l).splitBy r :=
  List.splitBy_append_cons (r := r) (l := [a]) l (by simpa using hab)

/-- An element related to the next one joins its run. -/
theorem splitBy_cons_of_rel {a b : α} {l g : List α} {gs : List (List α)} (hab : r a b = true)
    (h : (b :: l).splitBy r = g :: gs) : (a :: b :: l).splitBy r = (a :: g) :: gs := by
  rw [List.splitBy_eq_iff] at h ⊢
  obtain ⟨hflatten, hnil, hchains, hcuts⟩ := h
  obtain ⟨c, g, rfl⟩ := List.exists_cons_of_ne_nil (fun hg => hnil (hg ▸ List.mem_cons_self))
  obtain ⟨rfl, hl⟩ := List.cons.inj hflatten
  refine ⟨by rw [hflatten]; rfl, ?_, ?_, ?_⟩
  · simpa using hnil
  · intro run hrun
    rcases List.mem_cons.mp hrun with rfl | hrun
    · exact List.isChain_cons_cons.mpr ⟨hab, hchains _ List.mem_cons_self⟩
    · exact hchains run (List.mem_cons_of_mem _ hrun)
  · cases gs with
    | nil => exact List.isChain_singleton _
    | cons next gs =>
        obtain ⟨⟨hne, hnext, hcut⟩, hrest⟩ := List.isChain_cons_cons.mp hcuts
        refine List.isChain_cons_cons.mpr ⟨⟨List.cons_ne_nil _ _, hnext, ?_⟩, hrest⟩
        rwa [List.getLast_cons hne]

/-- The run a list starts with, and the rest of the runs. -/
theorem exists_splitBy_cons (r : α → α → Bool) (a : α) (l : List α) :
    ∃ g gs, (a :: l).splitBy r = (a :: g) :: gs := by
  induction l generalizing a with
  | nil => exact ⟨[], [], rfl⟩
  | cons b l ih =>
      cases hab : r a b with
      | false => exact ⟨[], _, splitBy_cons_of_not hab l⟩
      | true =>
          obtain ⟨g, gs, hsplit⟩ := ih b
          exact ⟨b :: g, gs, splitBy_cons_of_rel hab hsplit⟩

/-- The runs of a list have all its elements. -/
theorem sum_length_splitBy (r : α → α → Bool) (l : List α) :
    ((l.splitBy r).map List.length).sum = l.length := by
  rw [← List.length_flatten, List.flatten_splitBy]

end Runs
