import Mathlib.Data.List.Count
import Mathlib.Data.Nat.ModEq
import OsCourse.HashTable.Locked
import OsCourse.HashTable.Phases

/-! # Sharing the keys out

Thread `i` takes every `n`-th key from `i` on. Together the threads take every
key once, so what they insert is the array of keys up to order.
-/

namespace OsCourse.HashTable

open LinkedList

variable {n : Nat} {keys : List Nat} {i : Fin n} {key : Int}

/-- The index is one that thread `i` comes to. -/
def OnStride (i : Fin n) (key : Int) : Prop := 0 ≤ key ∧ key % n = i

/-- The calls of `insert` that thread `i` makes before it comes to `key`. -/
def issued (keys : List Nat) (i : Fin n) (key : Int) : List (Nat × Int) :=
  (keys.zipIdx.filter fun x => x.2 % n = i ∧ (x.2 : Int) < key).map fun x => (x.1, (i : Int))

/-- The entries of a bucket once every key is in the table, in no order that
matters. -/
def stored (keys : List Nat) (n : Nat) (b : Bucket) : List (Nat × Int) :=
  (keys.zipIdx.filter fun x => bucketOf x.1 = b).map fun x => (x.1, ((x.2 % n : Nat) : Int))

theorem onStride_first (i : Fin n) : OnStride i i := by
  refine ⟨Int.natCast_nonneg _, ?_⟩
  rw [← Int.natCast_mod, Nat.mod_eq_of_lt i.isLt]

theorem OnStride.next (h : OnStride i key) : OnStride i (key + n) := by
  refine ⟨Int.add_nonneg h.1 (Int.natCast_nonneg _), ?_⟩
  rw [Int.add_emod_right, h.2]

theorem keyAt_of_lt (hkey : 0 ≤ key) (hlt : key < keys.length) : ∃ k, keyAt keys key = some k := by
  have hindex : key.toNat < keys.length := by omega
  exact ⟨keys[key.toNat], by simp [keyAt, Int.not_lt.mpr hkey, hindex]⟩

theorem keyAt_eq_some {k : Nat} (h : keyAt keys key = some k) :
    ∃ j : Nat, key = j ∧ keys[j]? = some k := by
  unfold keyAt at h
  split at h
  next => cases h
  next hkey => exact ⟨key.toNat, by omega, h⟩

theorem issued_first : issued keys i i = [] := by
  simp only [issued, List.map_eq_nil_iff, List.filter_eq_nil_iff, decide_eq_true_eq]
  rintro x - ⟨hmod, hlt⟩
  have := Nat.mod_le x.2 n
  omega

theorem issued_all (hkey : keys.length ≤ key) : issued keys i key = issued keys i keys.length := by
  unfold issued
  congr 1
  apply List.filter_congr
  intro x hx
  have hlt := (List.mem_zipIdx' hx).1
  have hboth : (x.2 : Int) < key ↔ (x.2 : Int) < keys.length := by omega
  simp only [hboth]

theorem exists_split_of_getElem? {α : Type*} {xs : List α} {j : Nat} {x : α}
    (h : xs[j]? = some x) : ∃ before after, xs = before ++ x :: after ∧ before.length = j := by
  obtain ⟨hlt, rfl⟩ := List.getElem?_eq_some_iff.mp h
  exact ⟨xs.take j, xs.drop (j + 1), by simp, by simp [Nat.le_of_lt hlt]⟩

/-- One turn of the loop of `put_phase` makes one call. -/
theorem issued_next (hkey : OnStride i key) {k : Nat} (hk : keyAt keys key = some k) :
    issued keys i (key + n) = issued keys i key ++ [(k, (i : Int))] := by
  obtain ⟨j, rfl, hj⟩ := keyAt_eq_some hk
  have hmod : j % n = i := by
    have := hkey.2
    omega
  obtain ⟨before, after, rfl, rfl⟩ := exists_split_of_getElem? hj
  have hbefore : ∀ x ∈ before.zipIdx, (x.2 : Int) < before.length := by
    intro x hx
    have := (List.mem_zipIdx' hx).1
    omega
  have hafter : ∀ x ∈ after.zipIdx (before.length + 1), x.2 % n = i →
      (before.length + n : Int) ≤ x.2 := by
    intro x hx hx'
    have hge := (List.mem_zipIdx hx).1
    -- the next index with the same remainder is `n` further on
    have hdvd : n ∣ x.2 - before.length :=
      (Nat.modEq_iff_dvd' (by omega)).mp (hmod.trans hx'.symm)
    have := Nat.le_of_dvd (by omega) hdvd
    omega
  have hfirst : before.zipIdx.filter (fun x => x.2 % n = i ∧ (x.2 : Int) < before.length + n) =
      before.zipIdx.filter fun x => x.2 % n = i ∧ (x.2 : Int) < before.length := by
    apply List.filter_congr
    intro x hx
    have hlt := hbefore x hx
    have hlt' : (x.2 : Int) < before.length + n := by omega
    simp only [hlt, hlt']
  have hlast : ∀ bound : Int, bound ≤ before.length + n →
      (after.zipIdx (before.length + 1)).filter (fun x => x.2 % n = i ∧ (x.2 : Int) < bound) =
        [] := by
    intro bound hbound
    simp only [List.filter_eq_nil_iff, decide_eq_true_eq]
    rintro x hx ⟨hx', hlt⟩
    have := hafter x hx hx'
    omega
  have hpos := i.pos
  simp only [issued, List.zipIdx_append, Nat.zero_add, List.zipIdx_cons, List.filter_append,
    List.filter_cons, hfirst, hlast _ (Int.le_refl _), hlast before.length (by omega)]
  simp [hmod, hpos]

theorem count_callsOf {τ : Type*} [DecidableEq τ] (order : List (τ × Nat × Int)) (t : τ)
    (call : Nat × Int) : (callsOf order t).count call = order.count (t, call) := by
  induction order with
  | nil => rfl
  | cons x rest ih =>
      unfold callsOf at ih ⊢
      by_cases ht : x.1 = t
      · simp [ht, ih, List.count_cons, Prod.ext_iff]
      · simp [ht, ih, Prod.ext_iff]

/-- Orders with the same calls of every thread have the same calls. -/
theorem perm_of_callsOf {τ : Type*} [DecidableEq τ] {order order' : List (τ × Nat × Int)}
    (h : ∀ t, callsOf order t = callsOf order' t) : order.Perm order' := by
  rw [List.perm_iff_count]
  intro x
  rw [← count_callsOf, ← count_callsOf, h]

/-- When every thread has made its calls, a chain has exactly the entries of the
keys of its bucket. -/
theorem cellsOf_perm {history : List (Inserted (Fin n))} (hn : 0 < n)
    (h : ∀ i, callsOf (history.map Inserted.call) i = issued keys i keys.length) (b : Bucket) :
    ((cellsOf history b).map Prod.snd).Perm (stored keys n b) := by
  have hissued : ∀ i, issued keys i keys.length = callsOf (keys.zipIdx.map fun x =>
      (⟨x.2 % n, Nat.mod_lt _ hn⟩, x.1, ((x.2 % n : Nat) : Int))) i := by
    intro i
    have hfilter : keys.zipIdx.filter (fun x => x.2 % n = i ∧ (x.2 : Int) < keys.length) =
        keys.zipIdx.filter fun x => x.2 % n = i := by
      apply List.filter_congr
      intro x hx
      have hlt := (List.mem_zipIdx' hx).1
      simp [hlt]
    rw [issued, hfilter, callsOf, List.filter_map, List.map_map]
    simp only [Function.comp_def, Fin.ext_iff]
    apply List.map_congr_left
    intro x hx
    have hmod : x.2 % n = i := by simpa using (List.mem_filter.mp hx).2
    rw [hmod]
  have hperm := perm_of_callsOf fun i => (h i).trans (hissued i)
  have hbucket := ((hperm.filter fun x => bucketOf x.2.1 = b).map Prod.snd)
  rw [List.filter_map, List.filter_map, List.map_map, List.map_map] at hbucket
  unfold cellsOf
  rw [List.map_reverse, List.map_map]
  exact (List.reverse_perm _).trans hbucket

/-! ## Calls given one at a time -/

section GiveCall

variable {τ Lock : Type*} [DecidableEq τ] (s : State τ Lock)

@[simp] theorem giveCall_frame (t u : τ) (call : Nat × Int) :
    ((s.giveCall t call).thread u).frame = (s.thread u).frame := by
  unfold State.giveCall
  by_cases h : u = t
  · simp [h]
  · simp [h]

theorem giveCall_pending (t u : τ) (call : Nat × Int) :
    ((s.giveCall t call).thread u).pending =
      if u = t then (s.thread u).pending ++ [call] else (s.thread u).pending := by
  unfold State.giveCall Thread.pending
  by_cases h : u = t
  · subst h
    simp only [Function.update_self, if_true]
    split
    next f hf => split <;> rfl
    next => rfl
  · simp [h]

variable {s} {lockOf : Bucket → Lock} {calls : τ → List (Nat × Int)}
  {history : List (Inserted τ)}

theorem Sound.giveCall (h : Sound lockOf calls history s) (t : τ) (call : Nat × Int) :
    Sound lockOf (Function.update calls t (calls t ++ [call])) history (s.giveCall t call) := by
  obtain ⟨⟨hheld, howner⟩, ⟨hallocated, hpublished, hhidden, hapart⟩, hentries, hchains, horder⟩ :=
    h
  refine ⟨⟨?_, ?_⟩, ⟨?_, hpublished, ?_, ?_⟩, ?_, hchains, fun u => ?_⟩
  · simp only [giveCall_frame]
    exact hheld
  · simp only [giveCall_frame]
    exact howner
  · simp only [giveCall_frame]
    exact hallocated
  · simp only [giveCall_frame]
    exact hhidden
  · simp only [giveCall_frame]
    exact hapart
  · simp only [giveCall_frame]
    exact fun u f hf => (hentries u f hf).congr rfl rfl
  · rw [giveCall_pending]
    by_cases hut : u = t
    · subst hut
      rw [if_pos rfl, ← List.append_assoc, horder, Function.update_self]
    · rw [if_neg hut, horder, Function.update_of_ne hut]

end GiveCall

end OsCourse.HashTable
