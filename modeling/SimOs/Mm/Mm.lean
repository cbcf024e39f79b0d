import SimOs.Mm.Memphy

/-!
# Paging

`mm.c`: the memory management state of a process, the filling of its page table, and
the collection of frames for an allocation.  The page table has `PAGING_MAX_PGN`
entries and the symbol table 30; an index past the end is undefined.

`malloc` is taken to succeed.  What a new block holds is the parameter `Fresh`, of
which `Fresh.zeroed` is the one with cleared memory.

## Main definitions

* `VmRg`, `VmArea`, `Mm`, `Caller`: the structures of `os-mm.h`.
* `vmapPageRange`, `allocPagesRange`, `vmMapRam`, `initMm`: the functions of `mm.c`.
-/

namespace SimOs

/-- `PAGING_MAX_SYMTBL_SZ`. -/
def pagingMaxSymtblSz : ℤ := 30

/-- `struct vm_rg_struct`: a region. -/
@[ext] structure VmRg where
  rgStart : ℤ
  rgEnd : ℤ
  deriving DecidableEq

/-- `struct vm_area_struct`. -/
structure VmArea where
  vmId : ℤ
  vmStart : ℤ
  vmEnd : ℤ
  sbrk : ℤ
  vmFreergList : Chain VmRg

/-- `struct mm_struct`. -/
structure Mm where
  pgd : ℕ → BitVec 32
  mmap : Chain VmArea
  symrgtbl : ℤ → VmRg
  fifoPgn : Chain ℤ

/-- What the memory functions use of `struct pcb_t`: the memory management state and the
two devices. -/
structure Caller where
  mm : Mm
  dev : Dev → Memphy

/-- What `malloc` finds in a new block. -/
structure Fresh where
  /-- `fp_next` of a `framephy_struct`. -/
  fpNext : Chain ℤ
  /-- `vm_freerg_list` of a `vm_area_struct`. -/
  vmFreergList : Chain VmRg
  /-- A page table. -/
  pgd : ℕ → BitVec 32
  /-- `symrgtbl` and `fifo_pgn` of an `mm_struct`. -/
  symrgtbl : ℤ → VmRg
  fifoPgn : Chain ℤ

/-- Cleared memory. -/
def Fresh.zeroed : Fresh where
  fpNext := .null
  vmFreergList := .null
  pgd _ := 0
  symrgtbl _ := ⟨0, 0⟩
  fifoPgn := .null

namespace Caller

/-- Replace the memory management state. -/
def setMm (c : Caller) (mm : Mm) : Caller := { c with mm := mm }

/-- Replace a device. -/
def setDev (c : Caller) (d : Dev) (mp : Memphy) : Caller :=
  { c with dev := Function.update c.dev d mp }

@[simp] theorem mm_setMm (c : Caller) (mm : Mm) : (c.setMm mm).mm = mm := rfl
@[simp] theorem dev_setMm (c : Caller) (mm : Mm) : (c.setMm mm).dev = c.dev := rfl
@[simp] theorem mm_setDev (c : Caller) (d : Dev) (mp : Memphy) : (c.setDev d mp).mm = c.mm := rfl
@[simp] theorem dev_setDev_self (c : Caller) (d : Dev) (mp : Memphy) :
    (c.setDev d mp).dev d = mp := Function.update_self ..
theorem dev_setDev_of_ne (c : Caller) {d e : Dev} (h : e ≠ d) (mp : Memphy) :
    (c.setDev d mp).dev e = c.dev e := Function.update_of_ne h ..
@[simp] theorem setDev_dev (c : Caller) (d : Dev) : c.setDev d (c.dev d) = c := by
  rw [setDev, Function.update_eq_self]

end Caller

/-- `init_vm_rg`. -/
def initVmRg (rgStart rgEnd : ℤ) : VmRg := ⟨CInt.uint 64 rgStart, CInt.uint 64 rgEnd⟩

/-- `enlist_vm_rg_node`. -/
def enlistVmRgNode (rglist : Chain VmRg) (rgnode : VmRg) : Chain VmRg := .node rgnode rglist

/-- `enlist_pgn_node`. -/
def enlistPgnNode (plist : Chain ℤ) (pgn : ℤ) : Chain ℤ := .node pgn plist

/-- `init_mm`. -/
def initMm (fresh : Fresh) : Mm :=
  let vma0 : VmArea :=
    { vmId := 0, vmStart := 0, vmEnd := 0, sbrk := 0
      vmFreergList := enlistVmRgNode fresh.vmFreergList (initVmRg 0 0) }
  { pgd := fresh.pgd
    mmap := .node vma0 .null
    symrgtbl := fresh.symrgtbl
    fifoPgn := fresh.fifoPgn }

/-- One trip of the loop of `vmap_page_range`: map page `pgn` to frame `fpn`. -/
def mapPage (mm : Mm) (pgn : ℕ) (fpn : ℤ) : Mm :=
  { mm with
    pgd := Function.update mm.pgd pgn (pteSetFpn 0 fpn)
    fifoPgn := enlistPgnNode mm.fifoPgn pgn }

/-- The loop of `vmap_page_range` at `pgit`, with the frames from `fp->fp_next` on. -/
def vmapLoop (addr pgnum : ℤ) (pgn : ℕ) (retRg : VmRg) : Mm → ℕ → Chain ℤ → Option (VmRg × Mm)
  | mm, _, .null => some (retRg, mm)
  | _, _, .wild => none
  | mm, pgit, .node fpn next =>
      if pgn + pgit < pagingMaxPgn then
        let mm := mapPage mm (pgn + pgit) fpn
        if (pgit : ℤ) = pgnum - 1 then
          let rgEnd := CInt.sint 32 (addr + CInt.sint 32 (pgnum * pagingPagesz))
          some ({ retRg with rgEnd := CInt.uint 64 rgEnd }, mm)
        else vmapLoop addr pgnum pgn retRg mm (pgit + 1) next
      else none

/-- `vmap_page_range`. -/
def vmapPageRange (mm : Mm) (addr pgnum : ℤ) (frames : Chain ℤ) : Option (Ret VmRg × Mm) :=
  if pgnum ≤ 0 then some (.err, mm)
  else
    let retRg : VmRg := ⟨CInt.uint 64 addr, CInt.uint 64 addr⟩
    (vmapLoop addr pgnum (pagingPgn addr) retRg mm 0 frames).map fun r => (.ok r.1, r.2)

/-- The loop that returns frames: `nodes` is what `newfp_str->fp_next` points to.  Its
condition `fp->fp_next` does not change, so it ends only by running off the list. -/
def giveBackLoop : Chain ℤ → Memphy → Option Memphy
  | .node fpn next, mram => giveBackLoop next (mram.putFreefp fpn)
  | _, _ => none

/-- The loop of `alloc_pages_range` with `n` trips to go.  The nodes after `newfp_str`
hold the frames `got`; `fp` is the last of them, whose `fp_next` is what `malloc` left
there. -/
def allocPagesLoop (fresh : Fresh) (frmLst : Chain ℤ) :
    ℕ → List ℤ → Memphy → Option (Ret (Chain ℤ) × Memphy)
  | 0, _, mram => some (.ok frmLst, mram)
  | n + 1, got, mram =>
      match mram.getFreefp with
      | none => none
      | some (.ok fpn, mram) => allocPagesLoop fresh frmLst n (got ++ [fpn]) mram
      | some (.err, mram) =>
          if fresh.fpNext.isNull then some (.err, mram)
          else (giveBackLoop ((Chain.ofList got).append fresh.fpNext) mram).map fun mram =>
            (.err, mram)

/-- `alloc_pages_range`.  The argument `frm_lst` is never assigned through, so on
success it is what it was. -/
def allocPagesRange (fresh : Fresh) (mram : Memphy) (reqPgnum : ℤ) (frmLst : Chain ℤ) :
    Option (Ret (Chain ℤ) × Memphy) :=
  allocPagesLoop fresh frmLst reqPgnum.toNat [] mram

/-- `vm_map_ram`.  Its callers do not read `ret_rg`. -/
def vmMapRam (fresh : Fresh) (c : Caller) (_astart _aend mapstart incpgnum : ℤ) :
    Option (Ret Unit × Caller) :=
  match allocPagesRange fresh (c.dev .mram) incpgnum .null with
  | none => none
  | some (.err, mram) => some (.err, c.setDev .mram mram)
  | some (.ok frmLst, mram) =>
      (vmapPageRange c.mm mapstart incpgnum frmLst).map fun r =>
        (.ok (), (c.setDev .mram mram).setMm r.2)

end SimOs
