import Mathlib.Data.List.Basic

/-! # Cursor loops over a buffer

A cursor is an index into a list. The only loop considered here advances it
while the byte under it satisfies a test. Its endpoint splits the remaining
suffix into the longest prefix passing the test and the rest.
-/

namespace Cursor

variable {α : Type*}

/-- `while (s < es && cond(read(s))) s++`, for at most `fuel` iterations. -/
def advance (read : Nat → α) (es : Nat) (cond : α → Bool) : Nat → Nat → Nat
  | 0, s => s
  | fuel + 1, s => if s < es && cond (read s) then advance read es cond fuel (s + 1) else s

/-- The loop run to its exit: the bound `es` is reached after `es - s` iterations. -/
def scan (read : Nat → α) (es : Nat) (cond : α → Bool) (s : Nat) : Nat :=
  advance read es cond (es - s) s

variable (buf : List α) (pad : α) (cond : α → Bool)

theorem advance_eq (fuel s : Nat) (hfuel : buf.length - s ≤ fuel) :
    advance (buf.getD · pad) buf.length cond fuel s =
      s + ((buf.drop s).takeWhile cond).length := by
  induction fuel generalizing s with
  | zero =>
      have hnil : buf.drop s = [] := List.drop_eq_nil_of_le (by omega)
      simp [advance, hnil]
  | succ fuel ih =>
      unfold advance
      by_cases hlt : s < buf.length
      · have hget : buf.getD s pad = buf[s] := by simp [hlt]
        rw [List.drop_eq_getElem_cons hlt, hget]
        cases hcond : cond buf[s] with
        | false => simp only [hcond, Bool.and_false, Bool.false_eq_true, ↓reduceIte,
            not_false_eq_true, List.takeWhile_cons_of_neg, List.length_nil, Nat.add_zero]
        | true =>
            rw [List.takeWhile_cons_of_pos hcond, if_pos (by simp [hlt]),
              ih (s + 1) (by omega), List.length_cons]
            omega
      · have hnil : buf.drop s = [] := List.drop_eq_nil_of_le (by omega)
        simp [hlt, hnil]

/-- The cursor moves over exactly the longest prefix passing the test. -/
theorem scan_eq (s : Nat) :
    scan (buf.getD · pad) buf.length cond s = s + ((buf.drop s).takeWhile cond).length :=
  advance_eq buf pad cond _ s (Nat.le_refl _)

theorem scan_le (s : Nat) (hs : s ≤ buf.length) :
    scan (buf.getD · pad) buf.length cond s ≤ buf.length := by
  have hle := (List.takeWhile_sublist (l := buf.drop s) cond).length_le
  rw [List.length_drop] at hle
  rw [scan_eq]
  omega

theorem drop_scan (s : Nat) :
    buf.drop (scan (buf.getD · pad) buf.length cond s) = (buf.drop s).dropWhile cond := by
  have hsplit := List.takeWhile_append_dropWhile (p := cond) (l := buf.drop s)
  rw [scan_eq, ← List.drop_drop]
  calc (buf.drop s).drop ((buf.drop s).takeWhile cond).length
      = ((buf.drop s).takeWhile cond ++ (buf.drop s).dropWhile cond).drop
          ((buf.drop s).takeWhile cond).length := by rw [hsplit]
    _ = (buf.drop s).dropWhile cond := List.drop_left

/-- The bytes the loop passed over. -/
theorem take_scan (s : Nat) :
    (buf.drop s).take (scan (buf.getD · pad) buf.length cond s - s) =
      (buf.drop s).takeWhile cond := by
  have hlen : scan (buf.getD · pad) buf.length cond s - s =
      ((buf.drop s).takeWhile cond).length := by
    rw [scan_eq]
    omega
  have hsplit := List.takeWhile_append_dropWhile (p := cond) (l := buf.drop s)
  rw [hlen]
  calc (buf.drop s).take ((buf.drop s).takeWhile cond).length
      = ((buf.drop s).takeWhile cond ++ (buf.drop s).dropWhile cond).take
          ((buf.drop s).takeWhile cond).length := by rw [hsplit]
    _ = (buf.drop s).takeWhile cond := List.take_left

theorem getD_eq_headD (s : Nat) : buf.getD s pad = (buf.drop s).headD pad := by
  rw [List.headD_eq_head?_getD, List.head?_drop, List.getD_eq_getElem?_getD]

end Cursor
