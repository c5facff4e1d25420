import Mathlib.Data.List.Basic

/-! # C strings in fixed buffers

A buffer is an array of bytes. A store outside of it has no result, and neither
has reading a string that is not terminated inside of it. A string that was
written into a cleared buffer is followed by zeros only.
-/

namespace CBuffer

/-- An array of `n` bytes. -/
abbrev Buffer (n : Nat) := Vector UInt8 n

/-- The string that a list of bytes starts with: the bytes before the first
NUL, all of which and the NUL are read. -/
def stringOf : List UInt8 → Option (List UInt8)
  | [] => none
  | c :: cs => if c = 0 then some [] else (stringOf cs).map (c :: ·)

theorem stringOf_append_zero {s : List UInt8} (hs : (0 : UInt8) ∉ s) (rest : List UInt8) :
    stringOf (s ++ 0 :: rest) = some s := by
  induction s with
  | nil => rfl
  | cons c s ih =>
      simp only [List.mem_cons, not_or] at hs
      obtain ⟨hc, hs⟩ := hs
      rw [List.cons_append, stringOf, if_neg (Ne.symm hc), ih hs, Option.map_some]

theorem stringOf_eq_none {s : List UInt8} (hs : (0 : UInt8) ∉ s) : stringOf s = none := by
  induction s with
  | nil => rfl
  | cons c s ih =>
      simp only [List.mem_cons, not_or] at hs
      obtain ⟨hc, hs⟩ := hs
      rw [stringOf, if_neg (Ne.symm hc), ih hs, Option.map_none]

theorem nulFree_of_stringOf {l s : List UInt8} (h : stringOf l = some s) : (0 : UInt8) ∉ s := by
  induction l generalizing s with
  | nil => cases h
  | cons c l ih =>
      rw [stringOf] at h
      split at h
      · cases h
        exact List.not_mem_nil
      next hc =>
        obtain ⟨t, ht, rfl⟩ := Option.map_eq_some_iff.mp h
        exact fun hzero => (List.mem_cons.mp hzero).elim (fun heq => hc heq.symm) (ih ht)

variable {n : Nat}

/-- `memset(b, 0, n)`. -/
def zeros : Buffer n := Vector.replicate n 0

def store (b : Buffer n) (i : Nat) (c : UInt8) : Option (Buffer n) :=
  if h : i < n then some (b.set i c h) else none

/-- Store bytes from index `i` on. -/
def storeAll (b : Buffer n) (i : Nat) : List UInt8 → Option (Buffer n)
  | [] => some b
  | c :: cs => (store b i c).bind fun b => storeAll b (i + 1) cs

/-- The string at the start of a buffer. -/
def getString (b : Buffer n) : Option (List UInt8) := stringOf b.toList

/-- `strcpy(dst, src)`. -/
def strcpy (dst src : Buffer n) : Option (Buffer n) :=
  (getString src).bind fun s => storeAll dst 0 (s ++ [0])

/-- A buffer holding `s` and zeros after it. -/
def pad (s : List UInt8) : Buffer n := Vector.ofFn fun i => s.getD i.val 0

theorem zeros_eq_pad : (zeros : Buffer n) = pad [] := by
  apply Vector.ext
  intro i hi
  simp [zeros, pad]

theorem pad_append_zero (s : List UInt8) : (pad (s ++ [0]) : Buffer n) = pad s := by
  apply Vector.ext
  intro i hi
  simp only [pad, Vector.getElem_ofFn, List.getD_eq_getElem?_getD]
  rcases Nat.lt_trichotomy i s.length with hlt | rfl | hgt
  · rw [List.getElem?_append_left hlt]
  · simp
  · rw [List.getElem?_eq_none (by simp; omega), List.getElem?_eq_none (by omega)]

theorem store_pad {s : List UInt8} (hlen : s.length < n) (c : UInt8) :
    store (pad s : Buffer n) s.length c = some (pad (s ++ [c])) := by
  rw [store, dif_pos hlen]
  congr 1
  apply Vector.ext
  intro i hi
  rw [Vector.getElem_set]
  simp only [pad, Vector.getElem_ofFn, List.getD_eq_getElem?_getD]
  split
  next heq => simp [← heq]
  next hne =>
    rcases Nat.lt_or_gt_of_ne hne with hgt | hlt
    · rw [List.getElem?_eq_none (by omega), List.getElem?_eq_none (by simp; omega)]
    · rw [List.getElem?_append_left hlt]

/-- A terminator over the last byte of a string shortens it. -/
theorem store_pad_zero {s : List UInt8} (c : UInt8) (hlen : s.length < n) :
    store (pad (s ++ [c]) : Buffer n) s.length 0 = some (pad s) := by
  rw [store, dif_pos hlen]
  congr 1
  apply Vector.ext
  intro i hi
  rw [Vector.getElem_set]
  simp only [pad, Vector.getElem_ofFn, List.getD_eq_getElem?_getD]
  split
  next heq => simp [← heq]
  next hne =>
    rcases Nat.lt_or_gt_of_ne hne with hgt | hlt
    · rw [List.getElem?_eq_none (by simp; omega), List.getElem?_eq_none (by omega)]
    · rw [List.getElem?_append_left hlt]

theorem store_eq_none (b : Buffer n) {i : Nat} (h : n ≤ i) (c : UInt8) : store b i c = none :=
  dif_neg (by omega)

theorem storeAll_pad {s t : List UInt8} (hlen : s.length + t.length ≤ n) :
    storeAll (pad s : Buffer n) s.length t = some (pad (s ++ t)) := by
  induction t generalizing s with
  | nil => rw [storeAll, List.append_nil]
  | cons c t ih =>
      rw [List.length_cons] at hlen
      rw [storeAll, store_pad (by omega), Option.bind_some]
      have hrest := @ih (s ++ [c]) (by simp; omega)
      rw [List.length_append, List.length_singleton, List.append_assoc] at hrest
      exact hrest

theorem toList_pad {s : List UInt8} (hlen : s.length ≤ n) :
    (pad s : Buffer n).toList = s ++ List.replicate (n - s.length) 0 := by
  apply List.ext_getElem?
  intro i
  rcases Nat.lt_or_ge i n with hlt | hge
  · rw [List.getElem?_eq_getElem (by simpa using hlt), Vector.getElem_toList]
    simp only [pad, Vector.getElem_ofFn, List.getD_eq_getElem?_getD]
    rcases Nat.lt_or_ge i s.length with hs | hs
    · rw [List.getElem?_append_left hs, List.getElem?_eq_getElem hs, Option.getD_some]
    · rw [List.getElem?_append_right hs, List.getElem?_eq_none hs, List.getElem?_replicate,
        if_pos (by omega), Option.getD_none]
  · rw [List.getElem?_eq_none (by simpa using hge), List.getElem?_eq_none (by simp; omega)]

/-- A string is read back when there is room for its terminator. -/
theorem getString_pad {s : List UInt8} (hs : (0 : UInt8) ∉ s) (hlen : s.length < n) :
    getString (pad s : Buffer n) = some s := by
  obtain ⟨k, hk⟩ : ∃ k, n - s.length = k + 1 := ⟨n - s.length - 1, by omega⟩
  rw [getString, toList_pad (Nat.le_of_lt hlen), hk, List.replicate_succ]
  exact stringOf_append_zero hs _

/-- A string that fills its buffer is read beyond the end. -/
theorem getString_pad_eq_none {s : List UInt8} (hs : (0 : UInt8) ∉ s) (hlen : s.length = n) :
    getString (pad s : Buffer n) = none := by
  rw [getString, toList_pad (Nat.le_of_eq hlen), hlen, Nat.sub_self, List.replicate_zero,
    List.append_nil]
  exact stringOf_eq_none hs

theorem strcpy_zeros {s : List UInt8} (hs : (0 : UInt8) ∉ s) (hlen : s.length < n) :
    strcpy zeros (pad s : Buffer n) = some (pad s) := by
  rw [strcpy, getString_pad hs hlen, Option.bind_some, zeros_eq_pad]
  have hall := @storeAll_pad n [] (s ++ [0]) (by simp; omega)
  rw [List.nil_append, pad_append_zero] at hall
  exact hall

end CBuffer
