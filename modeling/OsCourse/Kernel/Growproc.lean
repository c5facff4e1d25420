import Mathlib.Data.Int.ConditionallyCompleteOrder
import Mathlib.Order.Interval.Set.Basic
import OsCourse.Lib.MachineInt

/-! # Growing and shrinking a process

`growproc` computes the new size in unsigned arithmetic and takes a result of 0
for a failure. The two routines of `vm.c` that it calls are given by what they
are known to do.
-/

namespace OsCourse.Kernel

open MachineInt

/-- `KERNBASE`: user addresses are below it. -/
def kernbase : Int := 0x80000000

/-- The conversion of an exact result to `uint`. -/
def toUint (x : Int) : Int := x % 2 ^ 32

/-- The routines of `vm.c`. The memory of a process and the free pages are a
value of `M`. -/
structure Vm (M : Type*) where
  /-- the user addresses that are mapped -/
  mapped : M → Set Int
  allocuvm : M → Int → Int → Int × M
  deallocuvm : M → Int → Int → Int × M

variable {M : Type*}

/-- What the routines of `vm.c` do. -/
structure Vm.Documented (vm : Vm M) : Prop where
  alloc_limit : ∀ m old new, kernbase ≤ new →
    (vm.allocuvm m old new).1 = 0 ∧ vm.mapped (vm.allocuvm m old new).2 = vm.mapped m
  alloc_less : ∀ m old new, new < kernbase → new < old →
    (vm.allocuvm m old new).1 = old ∧ vm.mapped (vm.allocuvm m old new).2 = vm.mapped m
  /-- Memory may run out. -/
  alloc : ∀ m old new, new < kernbase → old ≤ new →
    ((vm.allocuvm m old new).1 = 0 ∧ vm.mapped (vm.allocuvm m old new).2 = vm.mapped m) ∨
    ((vm.allocuvm m old new).1 = new ∧
      vm.mapped (vm.allocuvm m old new).2 = vm.mapped m ∪ Set.Ico old new)
  dealloc_more : ∀ m old new, old ≤ new →
    (vm.deallocuvm m old new).1 = old ∧ vm.mapped (vm.deallocuvm m old new).2 = vm.mapped m
  dealloc : ∀ m old new, new < old →
    (vm.deallocuvm m old new).1 = new ∧
      vm.mapped (vm.deallocuvm m old new).2 = vm.mapped m \ Set.Ico new old

/-- `proc->sz` and the memory behind `proc->pgdir`. -/
structure Image (M : Type*) where
  sz : Int
  mem : M

variable (vm : Vm M) (proc : Image M) (n : Int)

/-- `growproc`: its result, and the process after it. -/
def growproc : Int × Image M :=
  if 0 < n then
    let r := vm.allocuvm proc.mem proc.sz (toUint (proc.sz + n))
    if r.1 = 0 then (-1, { proc with mem := r.2 }) else (0, ⟨r.1, r.2⟩)
  else if n < 0 then
    let r := vm.deallocuvm proc.mem proc.sz (toUint (proc.sz + n))
    if r.1 = 0 then (-1, { proc with mem := r.2 }) else (0, ⟨r.1, r.2⟩)
  else (0, proc)

/-- `sys_sbrk` with an argument that could be fetched. -/
def sysSbrk : Int × Image M :=
  let addr := wrap proc.sz
  let r := growproc vm proc n
  if r.1 < 0 then (-1, r.2) else (addr, r.2)

/-- The process has grown by exactly `n`, or it has failed to and is as before. -/
structure GrowsExactly (failed : Prop) (proc' : Image M) : Prop where
  success : ¬failed → proc'.sz = proc.sz + n ∧ vm.mapped proc'.mem = Set.Ico 0 (proc.sz + n)
  failure : failed → proc'.sz = proc.sz ∧ vm.mapped proc'.mem = vm.mapped proc.mem

variable {vm proc n}

section Grow

variable (hvm : vm.Documented) (hpos : 0 < proc.sz) (hle : proc.sz ≤ kernbase)
  (hmapped : vm.mapped proc.mem = Set.Ico 0 proc.sz)
include hvm hpos hle hmapped

/-- Growing does not wrap around, and a result of 0 is a failure. -/
theorem growproc_up (hn : 0 < n) (hmax : n ≤ intMax) :
    GrowsExactly vm proc n ((growproc vm proc n).1 < 0) (growproc vm proc n).2 := by
  have huint : toUint (proc.sz + n) = proc.sz + n := by
    unfold toUint kernbase intMax at *
    omega
  have hgrown : proc.sz ≤ proc.sz + n := by omega
  have hunion : Set.Ico 0 proc.sz ∪ Set.Ico proc.sz (proc.sz + n) = Set.Ico 0 (proc.sz + n) :=
    Set.Ico_union_Ico_eq_Ico hpos.le hgrown
  have hcases :
      ((vm.allocuvm proc.mem proc.sz (proc.sz + n)).1 = 0 ∧
        vm.mapped (vm.allocuvm proc.mem proc.sz (proc.sz + n)).2 = vm.mapped proc.mem) ∨
      ((vm.allocuvm proc.mem proc.sz (proc.sz + n)).1 = proc.sz + n ∧
        vm.mapped (vm.allocuvm proc.mem proc.sz (proc.sz + n)).2 =
          vm.mapped proc.mem ∪ Set.Ico proc.sz (proc.sz + n)) := by
    rcases le_or_gt kernbase (proc.sz + n) with hlimit | hbelow
    · exact .inl (hvm.alloc_limit _ _ _ hlimit)
    · exact hvm.alloc _ _ _ hbelow hgrown
  rw [growproc, if_pos hn, huint]
  rcases hcases with ⟨hzero, hsame⟩ | ⟨hnew, hadded⟩
  · rw [if_pos hzero]
    exact ⟨fun hnot => absurd (by decide : (-1 : Int) < 0) hnot, fun _ => ⟨rfl, hsame⟩⟩
  · have hne : (vm.allocuvm proc.mem proc.sz (proc.sz + n)).1 ≠ 0 := by omega
    rw [if_neg hne]
    refine ⟨fun _ => ⟨hnew, ?_⟩, fun hfail => absurd hfail (lt_irrefl 0)⟩
    rw [hadded, hmapped, hunion]

/-- Shrinking to a size above 0 is exact. -/
theorem growproc_down (hn : n < 0) (hsz : 0 < proc.sz + n) :
    GrowsExactly vm proc n ((growproc vm proc n).1 < 0) (growproc vm proc n).2 := by
  have huint : toUint (proc.sz + n) = proc.sz + n := by
    unfold toUint kernbase at *
    omega
  obtain ⟨hnew, hremoved⟩ := hvm.dealloc proc.mem proc.sz (proc.sz + n) (by omega)
  have hne : (vm.deallocuvm proc.mem proc.sz (proc.sz + n)).1 ≠ 0 := by omega
  rw [growproc, if_neg hn.not_gt, if_pos hn, huint, if_neg hne]
  refine ⟨fun _ => ⟨hnew, ?_⟩, fun hfail => absurd hfail (lt_irrefl 0)⟩
  rw [hremoved, hmapped]
  ext address
  simp only [Set.mem_sdiff, Set.mem_Ico]
  omega

omit hle in
/-- Shrinking to 0 unmaps every page and is then taken for a failure. -/
theorem growproc_toZero (hsz : proc.sz + n = 0) :
    (growproc vm proc n).1 = -1 ∧ vm.mapped (growproc vm proc n).2.mem = ∅ := by
  have hn : n < 0 := by omega
  obtain ⟨hnew, hremoved⟩ := hvm.dealloc proc.mem proc.sz 0 hpos
  have huint : toUint (proc.sz + n) = 0 := by simp [toUint, hsz]
  rw [growproc, if_neg hn.not_gt, if_pos hn, huint, if_pos hnew]
  exact ⟨rfl, by rw [hremoved, hmapped, Set.sdiff_self]⟩

omit hmapped in
/-- Shrinking by more than the size wraps around to a larger size, so nothing
is done, and success is reported. -/
theorem growproc_belowZero (hmin : -2 ^ 31 ≤ n) (hsz : proc.sz + n < 0) :
    (growproc vm proc n).1 = 0 ∧ (growproc vm proc n).2.sz = proc.sz := by
  have hn : n < 0 := by omega
  have hwrap : proc.sz ≤ toUint (proc.sz + n) := by
    unfold toUint kernbase at *
    omega
  obtain ⟨hold, -⟩ := hvm.dealloc_more proc.mem proc.sz _ hwrap
  have hne : (vm.deallocuvm proc.mem proc.sz (toUint (proc.sz + n))).1 ≠ 0 := by omega
  rw [growproc, if_neg hn.not_gt, if_pos hn, if_neg hne]
  exact ⟨rfl, hold⟩

theorem growproc_exact_iff (hn : InRange n) :
    GrowsExactly vm proc n ((growproc vm proc n).1 < 0) (growproc vm proc n).2 ↔
      0 < proc.sz + n := by
  constructor
  · intro hexact
    rcases lt_trichotomy (proc.sz + n) 0 with hbelow | hzero | hpos'
    · obtain ⟨hok, hsame⟩ := growproc_belowZero hvm hpos hle hn.1 hbelow
      have hsz := (hexact.success (by rw [hok]; decide)).1
      omega
    · obtain ⟨hfail, hnone⟩ := growproc_toZero hvm hpos hmapped hzero
      have hkept := (hexact.failure (by rw [hfail]; decide)).2
      have hmem : (0 : Int) ∈ Set.Ico 0 proc.sz := ⟨le_rfl, hpos⟩
      rw [← hmapped, ← hkept, hnone] at hmem
      exact absurd hmem (Set.notMem_empty 0)
    · exact hpos'
  · intro hsz
    rcases lt_trichotomy n 0 with hneg | hzero | hup
    · exact growproc_down hvm hpos hle hmapped hneg hsz
    · subst hzero
      refine ⟨fun _ => ?_, fun hfail => absurd hfail (lt_irrefl 0)⟩
      exact ⟨(Int.add_zero _).symm, by rw [Int.add_zero]; exact hmapped⟩
    · exact growproc_up hvm hpos hle hmapped hup hn.2

omit hvm hmapped in
/-- `sys_sbrk` leaves what `growproc` leaves and fails when it fails: the old
size is never -1 as an `int`. -/
theorem sysSbrk_spec :
    (sysSbrk vm proc n).2 = (growproc vm proc n).2 ∧
      ((sysSbrk vm proc n).1 = -1 ↔ (growproc vm proc n).1 < 0) := by
  have haddr : wrap proc.sz ≠ -1 := by
    unfold wrap kernbase at *
    intro heq
    have hmod : proc.sz % (2 ^ 32 : Nat) = (-1) % (2 ^ 32 : Nat) := by
      rw [← heq, Int.bmod_emod]
    omega
  simp only [sysSbrk]
  split
  next hfail => exact ⟨rfl, iff_of_true rfl hfail⟩
  next hok => exact ⟨rfl, iff_of_false haddr hok⟩

/-- `growproc` and `sys_sbrk` are exact and atomic unless the process is to
lose all its memory or more. -/
theorem growproc_sysSbrk_exact_iff (hn : InRange n) :
    (GrowsExactly vm proc n ((growproc vm proc n).1 < 0) (growproc vm proc n).2 ∧
      GrowsExactly vm proc n ((sysSbrk vm proc n).1 = -1) (sysSbrk vm proc n).2) ↔
      0 < proc.sz + n := by
  obtain ⟨himage, hfails⟩ := @sysSbrk_spec M vm proc n hpos hle
  rw [himage, hfails, and_self]
  exact growproc_exact_iff hvm hpos hle hmapped hn

end Grow

/-- A `vm.c` that never runs out of memory. -/
def roomyVm : Vm (Int → Bool) where
  mapped mem := {address | mem address = true}
  allocuvm mem old new :=
    if kernbase ≤ new then (0, mem)
    else if new < old then (old, mem)
    else (new, fun address => mem address || decide (old ≤ address ∧ address < new))
  deallocuvm mem old new :=
    if old ≤ new then (old, mem)
    else (new, fun address => mem address && !decide (new ≤ address ∧ address < old))

/-- A process of one page. -/
def onePage : Image (Int → Bool) where
  sz := 4096
  mem address := decide (0 ≤ address ∧ address < 4096)

theorem roomyVm_documented : roomyVm.Documented where
  alloc_limit _ _ _ hlimit := by simp [roomyVm, hlimit]
  alloc_less _ _ _ hbelow hless := by simp [roomyVm, hbelow.not_ge, hless]
  alloc _ _ _ hbelow hle := by
    right
    simp only [roomyVm, hbelow.not_ge, hle.not_gt, if_false, true_and]
    ext address
    simp
  dealloc_more _ _ _ hle := by simp [roomyVm, hle]
  dealloc _ _ _ hless := by
    simp only [roomyVm, hless.not_ge, if_false, true_and]
    ext address
    simp only [Set.mem_ofPred_eq, Set.mem_sdiff, Set.mem_Ico, Bool.and_eq_true,
      Bool.not_eq_true', decide_eq_false_iff_not]

theorem onePage_mapped : roomyVm.mapped onePage.mem = Set.Ico 0 onePage.sz := by
  ext address
  simp [roomyVm, onePage]

theorem growproc_sysSbrk_exact_iff_onePage :
    GrowsExactly roomyVm onePage 4096 ((growproc roomyVm onePage 4096).1 < 0)
        (growproc roomyVm onePage 4096).2 ∧
      GrowsExactly roomyVm onePage 4096 ((sysSbrk roomyVm onePage 4096).1 = -1)
        (sysSbrk roomyVm onePage 4096).2 :=
  (growproc_sysSbrk_exact_iff roomyVm_documented (by decide) (by decide) onePage_mapped
    (by decide)).mpr (by decide)

/-- With one page, `growproc(-4096)` fails and leaves no page mapped, and
`growproc(-8192)` succeeds and leaves the size at 4096. -/
theorem growproc_onePage_inexact :
    roomyVm.Documented ∧ roomyVm.mapped onePage.mem = Set.Ico 0 onePage.sz ∧
      ((growproc roomyVm onePage (-4096)).1 = -1 ∧
        ¬GrowsExactly roomyVm onePage (-4096) ((growproc roomyVm onePage (-4096)).1 < 0)
          (growproc roomyVm onePage (-4096)).2) ∧
      ((growproc roomyVm onePage (-8192)).1 = 0 ∧
        (growproc roomyVm onePage (-8192)).2.sz = 4096 ∧
        ¬GrowsExactly roomyVm onePage (-8192) ((growproc roomyVm onePage (-8192)).1 < 0)
          (growproc roomyVm onePage (-8192)).2) := by
  refine ⟨roomyVm_documented, onePage_mapped, ⟨by decide, ?_⟩, by decide, by decide, ?_⟩
  · rw [growproc_exact_iff roomyVm_documented (by decide) (by decide) onePage_mapped (by decide)]
    decide
  · rw [growproc_exact_iff roomyVm_documented (by decide) (by decide) onePage_mapped (by decide)]
    decide

end OsCourse.Kernel
