import Mathlib.Algebra.GroupWithZero.Nat
import Mathlib.Algebra.Ring.Int.Defs
import OsCourse.Lib.EventLog

/-! # Arguments of system calls

The arguments of a system call are on the stack of the user program, at addresses
that it chooses. `argint`, `argptr` and `argstr` check them against the size of
the process and then read user memory; the addresses they read are logged.
-/

namespace OsCourse.Kernel

open EventLog

/-- What the functions use of the current process: `proc->sz`, `proc->tf->esp` and
the user memory. -/
structure UserProc where
  sz : UInt32
  esp : UInt32
  mem : UInt32 → UInt8

/-- Code that reads user memory, with the addresses it reads. -/
abbrev UserRead := Logs UInt32

section Functions

variable (proc : UserProc)

/-- `*s`. -/
def loadByte (s : UInt32) : UserRead UInt8 := do
  log s
  return proc.mem s

/-- `*(int*)addr`: four bytes, the lowest first. -/
def loadInt (addr : UInt32) : UserRead Int32 := do
  let a ← loadByte proc addr
  let b ← loadByte proc (addr + 1)
  let c ← loadByte proc (addr + 2)
  let d ← loadByte proc (addr + 3)
  return (a.toUInt32 ||| b.toUInt32 <<< 8 ||| c.toUInt32 <<< 16 ||| d.toUInt32 <<< 24).toInt32

/-- `fetchint`: what it stores in `*ip`, or nothing when it returns -1. -/
def fetchint (addr : UInt32) : UserRead (Option Int32) :=
  if proc.sz ≤ addr ∨ proc.sz < addr + 4 then return none
  else do
    let i ← loadInt proc addr
    return some i

/-- The loop of `fetchstr` from `s` on, and its result. -/
def fetchstrLoop (pp ep s : UInt32) : UserRead Int32 :=
  if s < ep then do
    let c ← loadByte proc s
    if c = 0 then return (s - pp).toInt32
    else fetchstrLoop pp ep (s + 1)
  else return -1
termination_by ep.toNat - s.toNat
decreasing_by
  have hlt := UInt32.lt_iff_toNat_lt.mp ‹s < ep›
  have hep := ep.toNat_lt
  rw [UInt32.toNat_add, UInt32.toNat_one]
  omega

/-- `fetchstr`: its result, and what it stores in `*pp`, if anything. -/
def fetchstr (addr : UInt32) : UserRead (Int32 × Option UInt32) :=
  if proc.sz ≤ addr then return (-1, none)
  else do
    let length ← fetchstrLoop proc addr proc.sz addr
    return (length, some addr)

/-- `argint`, as `fetchint`. -/
def argint (n : Int32) : UserRead (Option Int32) :=
  fetchint proc (proc.esp + 4 + (4 * n).toUInt32)

/-- `argptr`: what it stores in `*pp`, or nothing when it returns -1. -/
def argptr (n size : Int32) : UserRead (Option UInt32) := do
  match ← argint proc n with
  | none => return none
  | some i =>
      if proc.sz ≤ i.toUInt32 ∨ proc.sz < i.toUInt32 + size.toUInt32 then return none
      else return some i.toUInt32

/-- `argstr`, as `fetchstr`. -/
def argstr (n : Int32) : UserRead (Int32 × Option UInt32) := do
  match ← argint proc n with
  | none => return (-1, none)
  | some addr => fetchstr proc addr.toUInt32

end Functions

/-! ## What is read -/

/-- A read of an address below `sz`. There is no state to follow. -/
def Below (sz : UInt32) (_ : Unit) (a : UInt32) (_ : Unit) : Prop := a < sz

/-- The address of argument `n`. -/
def argAddr (proc : UserProc) (n : Int32) : Int := (proc.esp.toNat + 4 + 4 * n.toInt) % 2 ^ 32

/-- A string of `k` bytes before its NUL, all below `proc->sz`. -/
structure StringAt (proc : UserProc) (p : UInt32) (k : Nat) : Prop where
  below : p.toNat + k < proc.sz.toNat
  nul : proc.mem (p + .ofNat k) = 0
  bytes : ∀ j < k, proc.mem (p + .ofNat j) ≠ 0

theorem toNat_toUInt32_emod (n : Int32) : (n.toUInt32.toNat : Int) = n.toInt % 2 ^ 32 := by
  have hbmod : n.toInt = Int.bmod n.toUInt32.toNat (2 ^ 32) := BitVec.toInt_eq_toNat_bmod n.toBitVec
  have hlt := n.toUInt32.toNat_lt
  have hemod := @Int.bmod_emod n.toUInt32.toNat (2 ^ 32)
  rw [hbmod]
  omega

theorem toNat_argAddr (proc : UserProc) (n : Int32) :
    ((proc.esp + 4 + (4 * n).toUInt32).toNat : Int) = argAddr proc n := by
  have hn := toNat_toUInt32_emod n
  rw [Int32.toUInt32_mul, UInt32.toNat_add, UInt32.toNat_add, UInt32.toNat_mul, argAddr]
  have hfour : (4 : UInt32).toNat = 4 := rfl
  have hfour' : (Int32.toUInt32 4).toNat = 4 := rfl
  rw [hfour, hfour']
  omega

section Specs

variable {proc : UserProc} (hsz : proc.sz.toNat ≤ 0x80000000)

theorem loadByte_ensures {s : UInt32} (h : s < proc.sz) :
    Ensures (Below proc.sz) () (loadByte proc s) fun c _ => c = proc.mem s :=
  .log_bind (t := ()) h (.pure rfl)

/-- The four bytes of an `int` that ends below `proc->sz`. -/
theorem loadInt_ensures {addr : UInt32} (h : addr.toNat + 3 < proc.sz.toNat) :
    Ensures (Below proc.sz) () (loadInt proc addr) fun _ _ => True := by
  have hlt := proc.sz.toNat_lt
  have hbelow : ∀ j : UInt32, j.toNat ≤ 3 → addr + j < proc.sz := by
    intro j hj
    rw [UInt32.lt_iff_toNat_lt, UInt32.toNat_add]
    omega
  have hfirst : addr < proc.sz := UInt32.lt_iff_toNat_lt.mpr (by omega)
  refine (loadByte_ensures hfirst).bind fun a _ _ => ?_
  refine (loadByte_ensures (hbelow 1 (by decide))).bind fun b _ _ => ?_
  refine (loadByte_ensures (hbelow 2 (by decide))).bind fun c _ _ => ?_
  refine (loadByte_ensures (hbelow 3 (by decide))).bind fun d _ _ => ?_
  exact .pure trivial

include hsz

/-- No sum that is compared wraps around. -/
theorem fetchint_ensures (addr : UInt32) :
    Ensures (Below proc.sz) () (fetchint proc addr) fun r _ =>
      r.isSome ↔ addr.toNat + 3 < proc.sz.toNat := by
  have hfour : (4 : UInt32).toNat = 4 := rfl
  have hcheck : (proc.sz ≤ addr ∨ proc.sz < addr + 4) ↔ ¬ addr.toNat + 3 < proc.sz.toNat := by
    rw [UInt32.le_iff_toNat_le, UInt32.lt_iff_toNat_lt, UInt32.toNat_add, hfour]
    omega
  unfold fetchint
  split
  next hfails => exact .pure (by simpa using hcheck.mp hfails)
  next hfits =>
    have hbelow := not_not.mp (hcheck.not.mp hfits)
    exact (loadInt_ensures hbelow).bind fun i _ _ => .pure (by simpa using hbelow)

omit hsz in
/-- The distance of two addresses that are less than 2^31 apart, as an `int`. -/
theorem toNatClampNeg_sub {s pp : UInt32} {k : Nat} (hs : s.toNat = pp.toNat + k)
    (hk : k < 2 ^ 31) : (s - pp).toInt32.toNatClampNeg = k := by
  have hdiff : (s - pp).toNat = k := by
    rw [UInt32.toNat_sub_of_le _ _ (UInt32.le_iff_toNat_le.mpr (by omega))]
    omega
  have hint : (s - pp).toInt32.toInt = k := by
    have htoInt := @BitVec.toInt_eq_toNat_of_lt 32 (s - pp).toBitVec (by
      rw [UInt32.toNat_toBitVec, hdiff]
      omega)
    rw [UInt32.toNat_toBitVec, hdiff] at htoInt
    exact htoInt
  rw [Int32.toNatClampNeg, hint, Int.toNat_natCast]

/-- From `k` bytes that are not NUL on, the loop finds the end of the string. -/
theorem fetchstrLoop_ensures {pp s : UInt32} {k : Nat} (hs : s.toNat = pp.toNat + k)
    (hk : s = pp + .ofNat k) (hbytes : ∀ j < k, proc.mem (pp + .ofNat j) ≠ 0) :
    Ensures (Below proc.sz) () (fetchstrLoop proc pp proc.sz s) fun length _ =>
      0 ≤ length.toInt → StringAt proc pp length.toNatClampNeg := by
  fun_induction fetchstrLoop proc pp proc.sz s generalizing k with
  | case1 s hlt ih =>
      refine (loadByte_ensures hlt).bind fun c _ hc => ?_
      rw [UInt32.lt_iff_toNat_lt] at hlt
      split
      next hzero =>
        refine .pure fun _ => ?_
        rw [toNatClampNeg_sub hs (by omega)]
        exact ⟨by omega, by rw [← hk, ← hc, hzero], hbytes⟩
      next hne =>
        have hnext : s + 1 = pp + .ofNat (k + 1) := by
          rw [hk, UInt32.ofNat_add, ← UInt32.add_assoc]
          rfl
        refine ih ?_ hnext ?_
        · rw [UInt32.toNat_add, UInt32.toNat_one]
          omega
        · intro j hj
          rcases Nat.lt_succ_iff_lt_or_eq.mp hj with hold | rfl
          · exact hbytes j hold
          · rw [← hk, ← hc]
            exact hne
  | case2 s hge => exact .pure fun hfails => absurd hfails (by decide)

theorem fetchstr_ensures (addr : UInt32) :
    Ensures (Below proc.sz) () (fetchstr proc addr) fun r _ =>
      0 ≤ r.1.toInt → ∃ p, r.2 = some p ∧ StringAt proc p r.1.toNatClampNeg := by
  unfold fetchstr
  split
  next => exact .pure fun hfails => absurd hfails (by decide)
  next =>
    have hzero : addr = addr + .ofNat 0 := (UInt32.add_zero addr).symm
    have hloop := fetchstrLoop_ensures hsz (Nat.add_zero _).symm hzero
      fun j hj => absurd hj (Nat.not_lt_zero j)
    exact hloop.bind fun length _ hlength => .pure fun hok => ⟨addr, rfl, hlength hok⟩

theorem argint_ensures (n : Int32) :
    Ensures (Below proc.sz) () (argint proc n) fun r _ =>
      r.isSome ↔ ∀ j : Nat, j < 4 → argAddr proc n + j < proc.sz.toNat := by
  have haddr := toNat_argAddr proc n
  refine (fetchint_ensures hsz (proc.esp + 4 + (4 * n).toUInt32)).mono fun r _ hr => hr.trans ?_
  constructor
  · intro hbelow j hj
    omega
  · intro hbelow
    have hlast := hbelow 3 (by decide)
    omega

theorem argptr_ensures (n size : Int32) :
    Ensures (Below proc.sz) () (argptr proc n size) fun r _ =>
      ∀ p, r = some p → 0 ≤ size.toInt → p.toNat + size.toInt ≤ proc.sz.toNat := by
  refine (argint_ensures hsz n).bind fun r _ _ => ?_
  cases r with
  | none => exact .pure fun p hp => by cases hp
  | some i =>
      dsimp only
      split
      next => exact .pure fun p hp => by cases hp
      next hfits =>
        refine .pure fun p hp hsize => ?_
        obtain rfl := Option.some.inj hp
        have hlt := size.toInt_lt
        have hexact := toNat_toUInt32_emod size
        rw [UInt32.le_iff_toNat_le, UInt32.lt_iff_toNat_lt, UInt32.toNat_add] at hfits
        omega

theorem argstr_ensures (n : Int32) :
    Ensures (Below proc.sz) () (argstr proc n) fun r _ =>
      0 ≤ r.1.toInt → ∃ p, r.2 = some p ∧ StringAt proc p r.1.toNatClampNeg := by
  refine (argint_ensures hsz n).bind fun r _ _ => ?_
  cases r with
  | none => exact .pure fun hfails => absurd hfails (by decide)
  | some addr => exact fetchstr_ensures hsz addr.toUInt32

end Specs

/-- What the checks of the arguments are for: the kernel reads user memory only,
and what it is handed lies in user memory. -/
structure Confined (proc : UserProc) (n : Int32) : Prop where
  argint_reads : ∀ a ∈ events (argint proc n), a < proc.sz
  argptr_reads : ∀ size, ∀ a ∈ events (argptr proc n size), a < proc.sz
  argstr_reads : ∀ a ∈ events (argstr proc n), a < proc.sz
  /-- The argument is fetched exactly when its four bytes are in user memory. -/
  argint_isSome : (value (argint proc n)).isSome ↔
    ∀ j : Nat, j < 4 → argAddr proc n + j < proc.sz.toNat
  argptr_block : ∀ size p, value (argptr proc n size) = some p → 0 ≤ size.toInt →
    p.toNat + size.toInt ≤ proc.sz.toNat
  argstr_string : 0 ≤ (value (argstr proc n)).1.toInt →
    ∃ p, (value (argstr proc n)).2 = some p ∧
      StringAt proc p (value (argstr proc n)).1.toNatClampNeg

/-- Whatever the user program puts into `esp` and its memory, the checks confine the
kernel to user memory. -/
theorem arguments_confined (proc : UserProc) (hsz : proc.sz.toNat ≤ 0x80000000) (n : Int32) :
    Confined proc n := by
  have hreads : ∀ s a t, Below proc.sz s a t → a < proc.sz := fun _ _ _ h => h
  obtain ⟨_, hint, hfetched⟩ := argint_ensures hsz n
  obtain ⟨_, hstr, hstring⟩ := argstr_ensures hsz n
  refine ⟨hint.forall_mem hreads, ?_, hstr.forall_mem hreads, hfetched, ?_, hstring⟩
  · intro size
    obtain ⟨_, hptr, -⟩ := argptr_ensures hsz n size
    exact hptr.forall_mem hreads
  · intro size
    obtain ⟨_, -, hblock⟩ := argptr_ensures hsz n size
    exact hblock

/-- A process of one page of zeros, its stack at the end of the page. -/
def zeroPage : UserProc := ⟨4096, 4088, fun _ => 0⟩

/-- Its first argument is just below the end, the next is not. -/
theorem arguments_confined_zeroPage :
    Confined zeroPage 0 ∧ value (argint zeroPage 0) = some 0 ∧ value (argint zeroPage 1) = none :=
  ⟨arguments_confined zeroPage (by decide) 0, rfl, rfl⟩

end OsCourse.Kernel
