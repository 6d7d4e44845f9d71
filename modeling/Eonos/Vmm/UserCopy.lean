import Eonos.Vmm.Model

/-!
# Copies between the kernel and user memory

`copy_from_user`, `copy_to_user` and `validate_user_range`.  None of them
dereferences a user pointer: they walk the page tables in software and go
through the direct map, so a copy to user memory writes to the memory the
tables live in.
-/

namespace Eonos.Vmm

/-- `entry & flags == flags`. -/
def hasAll (entry flags : BitVec 64) : Bool := entry &&& flags == flags

/-- `walk_user` and `walk_user_write` differ in the flags of the leaf only. -/
def walkUserWith (leafFlags : BitVec 64) (m : Memory) (pml4 virt : BitVec 64) :
    Option (BitVec 64) :=
  let e0 := readEntry m pml4 (index virt 0)
  if !hasAll e0 (present ||| user) then none
  else
    let e1 := readEntry m (e0 &&& addrMask) (index virt 1)
    if !hasAll e1 (present ||| user) || has e1 huge then none
    else
      let e2 := readEntry m (e1 &&& addrMask) (index virt 2)
      if !hasAll e2 (present ||| user) || has e2 huge then none
      else
        let leaf := readEntry m (e2 &&& addrMask) (index virt 3)
        if !hasAll leaf leafFlags then none
        else some ((leaf &&& addrMask) + (virt &&& 0xfff#64))

def walkUser (m : Memory) (pml4 virt : BitVec 64) : Option (BitVec 64) :=
  walkUserWith (present ||| user) m pml4 virt

def walkUserWrite (m : Memory) (pml4 virt : BitVec 64) : Option (BitVec 64) :=
  walkUserWith (present ||| user ||| writable) m pml4 virt

/-- `current_cr3`. -/
def currentCr3 (cr3 : BitVec 64) : BitVec 64 := cr3 &&& addrMask

/-- The loop of `validate_user_range`; `fuel` bounds the pages left. -/
def validateLoop (walks : Nat → Option (BitVec 64)) (finish : Nat) :
    Nat → Nat → Bool
  | 0, va => !decide (va < finish)
  | fuel + 1, va =>
    if va < finish then
      if (walks va).isNone then false
      else
        -- `saturating_add`
        let nextPage := min (va / pageSize * pageSize + pageSize) (2 ^ 64 - 1)
        if nextPage ≤ va then false
        else validateLoop walks finish fuel (min nextPage finish)
    else true

def validateUserRange (m : Memory) (cr3 addr : BitVec 64) (len : Nat) (write : Bool) : Bool :=
  if len = 0 then true
  else if 2 ^ 64 ≤ addr.toNat + len then false
  else
    let finish := addr.toNat + len
    if userSpaceEnd ≤ addr ∨ userSpaceEnd.toNat < finish then false
    else
      let pml4 := currentCr3 cr3
      let walks := fun va =>
        if write then walkUserWrite m pml4 (BitVec.ofNat 64 va)
        else walkUser m pml4 (BitVec.ofNat 64 va)
      validateLoop walks finish (len / pageSize + 2) addr.toNat

/-- `copy_nonoverlapping` of `n` bytes at `phys` into `dst` at `done`. -/
def readInto (m : Memory) (phys : Nat) (dst : List UInt8) (done n : Nat) : List UInt8 :=
  dst.take done ++ (List.range n).map (fun k => m (phys + k)) ++
    dst.drop (done + n)

def copyFromLoop (m : Memory) (pml4 src : BitVec 64) :
    Nat → Nat → List UInt8 → Bool × List UInt8
  | 0, _, dst => (false, dst)
  | fuel + 1, done, dst =>
    if done < dst.length then
      let va := src + BitVec.ofNat 64 done
      let pageOff := (va &&& 0xfff#64).toNat
      let n := min (dst.length - done) (pageSize - pageOff)
      (walkUser m pml4 va).elim (false, dst) fun phys =>
        copyFromLoop m pml4 src fuel (done + n)
          (readInto m phys.toNat dst done n)
    else (true, dst)

/-- What `copy_from_user` returns, and the buffer afterwards. -/
def copyFromUser (m : Memory) (cr3 : BitVec 64) (dst : List UInt8)
    (src : BitVec 64) : Bool × List UInt8 :=
  if !validateUserRange m cr3 src dst.length false then (false, dst)
  else copyFromLoop m (currentCr3 cr3) src (dst.length + 1) 0 dst

/-- `copy_nonoverlapping` of `n` bytes of `src` from `done` on to `phys`. -/
def writeFrom (m : Memory) (phys : Nat) (src : List UInt8) (done n : Nat) : Memory :=
  fun b =>
    if phys ≤ b ∧ b < phys + n then src.getD (done + (b - phys)) 0 else m b

def copyToLoop (pml4 dst : BitVec 64) (src : List UInt8) :
    Nat → Nat → Memory → Bool × Memory
  | 0, _, m => (false, m)
  | fuel + 1, done, m =>
    if done < src.length then
      let va := dst + BitVec.ofNat 64 done
      let pageOff := (va &&& 0xfff#64).toNat
      let n := min (src.length - done) (pageSize - pageOff)
      (walkUserWrite m pml4 va).elim (false, m) fun phys =>
        copyToLoop pml4 dst src fuel (done + n)
          (writeFrom m phys.toNat src done n)
    else (true, m)

/-- What `copy_to_user` returns, and physical memory afterwards. -/
def copyToUser (m : Memory) (cr3 dst : BitVec 64) (src : List UInt8) : Bool × Memory :=
  if !validateUserRange m cr3 dst src.length true then (false, m)
  else copyToLoop (currentCr3 cr3) dst src (src.length + 1) 0 m

end Eonos.Vmm
