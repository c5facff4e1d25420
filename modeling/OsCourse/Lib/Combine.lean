import Mathlib.Data.List.Basic

/-! # Combining a list by an operation

Partial results of an associative and commutative operation can be combined in
any grouping. In particular the values of a sequence may be dealt out in turn
to several workers.
-/

namespace Combine

variable {α β : Type*} (op : α → α → α) (e : α)

/-- The combination of all elements. -/
def total (l : List α) : α := l.foldr op e

@[simp] theorem total_nil : total op e [] = e := rfl

@[simp] theorem total_cons (a : α) (l : List α) : total op e (a :: l) = op a (total op e l) := rfl

variable [Std.Associative op] [Std.LawfulIdentity op e]

theorem total_append (l m : List α) :
    total op e (l ++ m) = op (total op e l) (total op e m) := by
  induction l with
  | nil => exact (Std.LawfulLeftIdentity.left_id _).symm
  | cons a l ih =>
      rw [List.cons_append, total_cons, total_cons, ih]
      exact (Std.Associative.assoc _ _ _).symm

/-- A loop that adds one element after the other. -/
theorem foldl_eq_total (a : α) (l : List α) : l.foldl op a = op a (total op e l) := by
  induction l generalizing a with
  | nil => exact (Std.LawfulRightIdentity.right_id _).symm
  | cons b l ih =>
      rw [List.foldl_cons, ih, total_cons]
      exact Std.Associative.assoc _ _ _

theorem total_concat (l : List α) (a : α) : total op e (l ++ [a]) = op (total op e l) a := by
  rw [total_append, total_cons, total_nil]
  exact congrArg (op _) (Std.LawfulRightIdentity.right_id a)

variable [Std.Commutative op]

theorem total_map_op (f g : β → α) (l : List β) :
    total op e (l.map fun b => op (f b) (g b)) =
      op (total op e (l.map f)) (total op e (l.map g)) := by
  induction l with
  | nil => exact (Std.LawfulRightIdentity.right_id _).symm
  | cons b l ih =>
      simp only [List.map_cons, total_cons, ih]
      ac_rfl

/-- The values `f 0, f 1, …` dealt out in turn to `n` workers, `k` to each. -/
theorem total_strides (f : Nat → α) (n k : Nat) :
    total op e ((List.range n).map fun i =>
        total op e ((List.range k).map fun j => f (j * n + i))) =
      total op e ((List.range (k * n)).map f) := by
  induction k with
  | zero =>
      have hconst : ∀ l : List Nat, total op e (l.map fun _ => e) = e := by
        intro l
        induction l with
        | nil => rfl
        | cons i l ih =>
            rw [List.map_cons, total_cons, ih]
            exact Std.LawfulLeftIdentity.left_id e
      simpa using hconst (List.range n)
  | succ k ih =>
      have hrange : List.range ((k + 1) * n) =
          List.range (k * n) ++ (List.range n).map (k * n + ·) := by
        rw [Nat.succ_mul, List.range_add]
      simp only [List.range_succ, List.map_append, List.map_cons, List.map_nil, total_concat]
      rw [total_map_op, ih, hrange, List.map_append, total_append, List.map_map]
      rfl

end Combine
