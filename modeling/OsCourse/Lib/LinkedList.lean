import Mathlib.Data.List.Basic

/-! # Singly linked lists in memory

A memory is read through a function that gives, for the address of a node, its
content and the pointer to the next node. `Linked` says which cells a pointer
leads to, in order and up to the null pointer.
-/

namespace LinkedList

variable {A α : Type*}

/-- The pointer leads to exactly these cells. -/
def Linked (node : A → Option (α × Option A)) : Option A → List (A × α) → Prop
  | ptr, [] => ptr = none
  | ptr, (a, x) :: rest => ptr = some a ∧ ∃ next, node a = some (x, next) ∧ Linked node next rest

variable {node node' : A → Option (α × Option A)}

/-- Memory outside the cells does not matter. -/
theorem Linked.frame {ptr : Option A} {cells : List (A × α)} (h : Linked node ptr cells)
    (hsame : ∀ cell ∈ cells, node' cell.1 = node cell.1) : Linked node' ptr cells := by
  induction cells generalizing ptr with
  | nil => exact h
  | cons cell rest ih =>
      obtain ⟨hptr, next, hnode, hrest⟩ := h
      refine ⟨hptr, next, ?_, ih hrest fun c hc => hsame c (List.mem_cons_of_mem _ hc)⟩
      rw [hsame cell List.mem_cons_self, hnode]

/-- A node in front of a list. -/
theorem Linked.push {ptr : Option A} {cells : List (A × α)} (h : Linked node ptr cells) {a : A}
    {x : α} (ha : node a = some (x, ptr)) : Linked node (some a) ((a, x) :: cells) :=
  ⟨rfl, ptr, ha, h⟩

theorem Linked.node_of_mem {ptr : Option A} {cells : List (A × α)} (h : Linked node ptr cells)
    {cell : A × α} (hcell : cell ∈ cells) : ∃ next, node cell.1 = some (cell.2, next) := by
  induction cells generalizing ptr with
  | nil => cases hcell
  | cons head rest ih =>
      obtain ⟨-, next, hnode, hrest⟩ := h
      rcases List.mem_cons.mp hcell with rfl | hmem
      · exact ⟨next, hnode⟩
      · exact ih hrest hmem

/-- A pointer leads to one list of cells at most. -/
theorem Linked.unique {ptr : Option A} {cells cells' : List (A × α)}
    (h : Linked node ptr cells) (h' : Linked node ptr cells') : cells = cells' := by
  induction cells generalizing ptr cells' with
  | nil =>
      cases cells' with
      | nil => rfl
      | cons _ _ => cases h.symm.trans h'.1
  | cons head rest ih =>
      obtain ⟨hptr, next, hnode, hrest⟩ := h
      cases cells' with
      | nil => cases hptr.symm.trans h'
      | cons head' rest' =>
          obtain ⟨hptr', next', hnode', hrest'⟩ := h'
          have haddr : head.1 = head'.1 := Option.some.inj (hptr.symm.trans hptr')
          rw [← haddr, hnode, Option.some.injEq, Prod.mk.injEq] at hnode'
          obtain ⟨hval, rfl⟩ := hnode'
          rw [ih hrest hrest', Prod.ext haddr hval]

/-- The cells from one on are those its address leads to. -/
theorem Linked.suffix {ptr : Option A} {front rest : List (A × α)} {cell : A × α}
    (h : Linked node ptr (front ++ cell :: rest)) : Linked node (some cell.1) (cell :: rest) := by
  induction front generalizing ptr with
  | nil =>
      obtain ⟨rfl, hrest⟩ := h
      exact ⟨rfl, hrest⟩
  | cons _ _ ih =>
      obtain ⟨-, next, -, hrest⟩ := h
      exact ih hrest

/-- A list that ends does not come back to a node. -/
theorem Linked.nodup {ptr : Option A} {cells : List (A × α)} (h : Linked node ptr cells) :
    (cells.map Prod.fst).Nodup := by
  induction cells generalizing ptr with
  | nil => exact List.nodup_nil
  | cons cell rest ih =>
      obtain ⟨rfl, next, hnode, hrest⟩ := h
      refine List.nodup_cons.mpr ⟨?_, ih hrest⟩
      intro hmem
      obtain ⟨again, hagain, heq⟩ := List.mem_map.mp hmem
      obtain ⟨front, back, rfl⟩ := List.append_of_mem hagain
      -- the address leads to the whole list and to its part from `again` on
      have hwhole : Linked node (some again.1) (cell :: (front ++ again :: back)) :=
        ⟨by rw [heq], next, hnode, hrest⟩
      have hlength := congrArg List.length (hwhole.unique hrest.suffix)
      simp only [List.length_cons, List.length_append] at hlength
      omega

/-- The number of nodes a pointer leads to, counted up to a limit. -/
def walk (node : A → Option (α × Option A)) : Nat → Option A → Nat
  | limit + 1, some a => (node a).elim 0 fun x => walk node limit x.2 + 1
  | _, _ => 0

theorem Linked.walk_eq {ptr : Option A} {cells : List (A × α)} (h : Linked node ptr cells)
    {limit : Nat} (hlimit : cells.length ≤ limit) : walk node limit ptr = cells.length := by
  induction cells generalizing ptr limit with
  | nil =>
      obtain rfl : ptr = none := h
      cases limit <;> rfl
  | cons cell rest ih =>
      obtain ⟨rfl, next, hnode, hrest⟩ := h
      cases limit with
      | zero => simp at hlimit
      | succ limit =>
          rw [walk, hnode, Option.elim_some, ih hrest (Nat.le_of_succ_le_succ hlimit),
            List.length_cons]

end LinkedList
