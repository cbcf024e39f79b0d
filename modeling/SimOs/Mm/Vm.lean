import SimOs.Mm.Mm

/-!
# Virtual memory areas

`mm-vm.c`.  A pointer to an area is its position in the list `mmap`, so that what is
changed through it is changed in the list.

## Main definitions

* `getVmaByNum`, `validateOverlapVmArea`, `incVmaLimit`: the functions of `mm-vm.c`.
-/

namespace SimOs

/-- The loop of `get_vma_by_num` at the area in position `k`.  The field `vm_id` is read
before the test for `NULL`. -/
def vmaLoop (vmaid : ℤ) : Chain VmArea → ℕ → Option ℕ
  | .node vma next, k =>
      if CInt.sint 32 vma.vmId < vmaid then vmaLoop vmaid next (k + 1) else some k
  | _, _ => none

/-- `get_vma_by_num`: the position of the area, or `NULL`. -/
def getVmaByNum (mm : Mm) (vmaid : ℤ) : Option (Option ℕ) :=
  if mm.mmap.isNull then some none else (vmaLoop vmaid mm.mmap 0).map some

/-- `PAGING_PAGE_ALIGNSZ`, on an `int`. -/
def pagingPageAlignsz (sz : ℤ) : ℤ :=
  CInt.sint 32 ((CInt.sint 32 (sz + pagingPagesz - 1)).tdiv pagingPagesz * pagingPagesz)

/-- `get_vm_area_node_at_brk`, through a pointer that is not `NULL`. -/
def getVmAreaNodeAtBrk (vma : VmArea) (size : ℤ) : VmRg :=
  ⟨vma.sbrk, CInt.uint 64 (vma.sbrk + size)⟩

/-- The loop of `validate_overlap_vm_area`: no free region meets `[vmastart, vmaend)`.
The bounds are converted to `unsigned long` by the comparisons. -/
def validateLoop (vmastart vmaend : ℤ) : Chain VmRg → Option (Ret Unit)
  | .null => some (.ok ())
  | .wild => none
  | .node curr next =>
      if CInt.uint 64 vmaend ≤ curr.rgStart ∨ curr.rgEnd ≤ CInt.uint 64 vmastart then
        validateLoop vmastart vmaend next
      else some .err

/-- `validate_overlap_vm_area`. -/
def validateOverlapVmArea (mm : Mm) (vmaid vmastart vmaend : ℤ) : Option (Ret Unit) :=
  match getVmaByNum mm vmaid with
  | none => none
  | some none => some .err
  | some (some k) =>
      (mm.mmap.get? k).bind fun vma => validateLoop vmastart vmaend vma.vmFreergList

/-- Change the area in position `k`. -/
def Caller.modifyVma (c : Caller) (k : ℕ) (f : VmArea → VmArea) : Caller :=
  c.setMm { c.mm with mmap := c.mm.mmap.modify f k }

/-- `inc_vma_limit`.  A missing area is dereferenced. -/
def incVmaLimit (fresh : Fresh) (c : Caller) (vmaid incSz : ℤ) : Option (Ret Unit × Caller) :=
  let incAmt := pagingPageAlignsz incSz
  let incnumpage := incAmt.tdiv pagingPagesz
  match getVmaByNum c.mm vmaid with
  | none => none
  | some none => none
  | some (some k) =>
      (c.mm.mmap.get? k).bind fun curVma =>
        let area := getVmAreaNodeAtBrk curVma incSz
        let oldEnd := CInt.sint 32 curVma.vmEnd
        match validateOverlapVmArea c.mm vmaid (CInt.sint 32 area.rgStart)
            (CInt.sint 32 area.rgEnd) with
        | none => none
        | some .err => some (.err, c)
        | some (.ok ()) =>
            let c := c.modifyVma k fun vma =>
              { vma with vmEnd := CInt.uint 64 (vma.vmEnd + incSz) }
            vmMapRam fresh c (CInt.sint 32 area.rgStart) (CInt.sint 32 area.rgEnd) oldEnd incnumpage

end SimOs
