import SimOs.Mm.Vm

/-!
# The memory library

`libmem.c`: allocation and release of regions, page faults, and access to single
bytes.  All functions but `pg_getpage` and the accesses run under `mmvm_lock`, which a
sequence of calls of one process does not see.  Null pointers for `mm` and the devices
are left out: `ld_routine` sets all of them before a process runs.

## Main definitions

* `alloc`, `free`, `liballoc`, `libfree`: `__alloc`, `__free` and their callers.
* `pgGetpage`, `pgGetval`, `pgSetval`: the page fault and the accesses to bytes.
* `read`, `write`, `libread`, `libwrite`: the accesses to regions.
-/

namespace SimOs.Libmem

/-- `enlist_vm_freerg_list`. -/
def enlistVmFreergList (mm : Mm) (rgElmt : VmRg) : Option (Ret Unit × Mm) :=
  (mm.mmap.get? 0).map fun _ =>
    if rgElmt.rgStart ≥ rgElmt.rgEnd then (.err, mm)
    else
      let enlist (vma : VmArea) := { vma with vmFreergList := .node rgElmt vma.vmFreergList }
      (.ok (), { mm with mmap := mm.mmap.modify enlist 0 })

/-- The entries of `symrgtbl`. -/
def IsSymbol (rgid : ℤ) : Prop := 0 ≤ rgid ∧ rgid < pagingMaxSymtblSz

instance (rgid : ℤ) : Decidable (IsSymbol rgid) := inferInstanceAs (Decidable (_ ∧ _))

/-- Assign to an entry of `symrgtbl`. -/
def setSymrg (mm : Mm) (rgid : ℤ) (rg : VmRg) : Option Mm :=
  if IsSymbol rgid then some { mm with symrgtbl := Function.update mm.symrgtbl rgid rg }
  else none

/-- `get_symrg_byid`, followed by a read through the pointer.  The test lets one index
past the table through. -/
def getSymrgByid (mm : Mm) (rgid : ℤ) : Option (Option VmRg) :=
  if rgid < 0 ∨ rgid > pagingMaxSymtblSz then some none
  else if IsSymbol rgid then some (some (mm.symrgtbl rgid)) else none

/-- The loop of `get_free_vmrg_area`: it returns -1 when it has looked at the last
region, whether or not it has found one. -/
def freeVmrgLoop (size : ℤ) : Chain VmRg → VmRg → Option (Ret VmRg)
  | .null, newrg => some (.ok newrg)
  | .wild, _ => none
  | .node rgit next, newrg =>
      let newrg := if CInt.sint 32 (rgit.rgEnd - rgit.rgStart) ≥ size then rgit else newrg
      if next.isNull then some .err else freeVmrgLoop size next newrg

/-- `get_free_vmrg_area`. -/
def getFreeVmrgArea (mm : Mm) (vmaid size : ℤ) : Option (Ret VmRg) :=
  match getVmaByNum mm vmaid with
  | none => none
  | some none => some .err
  | some (some k) =>
      (mm.mmap.get? k).bind fun curVma =>
        if curVma.vmFreergList.isNull then some .err
        else freeVmrgLoop size curVma.vmFreergList ⟨CInt.uint 64 (-1), CInt.uint 64 (-1)⟩

/-- The last part of `__alloc`, after `inc_vma_limit` succeeded on the area in position
`k`: the rest of the last page is given to the free list, the region is recorded, and
the break moves. -/
def allocAtBrk (c : Caller) (k : ℕ) (rgid size incSz oldSbrk : ℤ) :
    Option (Ret (Option ℤ) × Caller) :=
  let freeNode : VmRg :=
    ⟨CInt.uint 64 (CInt.sint 32 (size + oldSbrk + 1)),
      CInt.uint 64 (CInt.sint 32 (incSz + oldSbrk))⟩
  let enlisted :=
    if incSz > size then (enlistVmFreergList c.mm freeNode).map Prod.snd else some c.mm
  enlisted.bind fun mm =>
    let rg : VmRg := ⟨CInt.uint 64 oldSbrk, CInt.uint 64 (CInt.sint 32 (oldSbrk + size))⟩
    (setSymrg mm rgid rg).map fun mm =>
      (.ok (some oldSbrk), (c.setMm mm).modifyVma k fun vma =>
        { vma with sbrk := CInt.uint 64 (vma.sbrk + incSz) })

/-- `__alloc`.  The value is what `*alloc_addr` was set to, if it was.  It returns 0 also
if `inc_vma_limit` failed. -/
def alloc (fresh : Fresh) (c : Caller) (vmaid rgid size : ℤ) :
    Option (Ret (Option ℤ) × Caller) :=
  match getFreeVmrgArea c.mm vmaid size with
  | none => none
  | some (.ok rgnode) =>
      (setSymrg c.mm rgid rgnode).map fun mm => (.ok (some rgnode.rgStart), c.setMm mm)
  | some .err =>
      match getVmaByNum c.mm vmaid with
      | none => none
      | some none => some (.err, c)
      | some (some k) =>
          (c.mm.mmap.get? k).bind fun curVma =>
            let incSz := pagingPageAlignsz size
            let oldSbrk := CInt.sint 32 curVma.sbrk
            match incVmaLimit fresh c vmaid incSz with
            | none => none
            | some (.err, c) => some (.ok none, c)
            | some (.ok (), c) => allocAtBrk c k rgid size incSz oldSbrk

/-- `__free`. -/
def free (c : Caller) (vmaid rgid : ℤ) : Option (Ret Unit × Caller) :=
  if ¬ IsSymbol rgid then some (.err, c)
  else
    let freeRg := c.mm.symrgtbl rgid
    if freeRg.rgStart ≥ freeRg.rgEnd then some (.err, c)
    else
      match getVmaByNum c.mm vmaid with
      | none => none
      | some none => some (.err, c)
      | some (some _) =>
          (enlistVmFreergList c.mm freeRg).bind fun r =>
            (setSymrg r.2 rgid ⟨0, 0⟩).map fun mm => (.ok (), c.setMm mm)

/-- `liballoc`.  The arguments are `uint32_t` values, converted to `int` on the way. -/
def liballoc (fresh : Fresh) (c : Caller) (size regIndex : ℤ) :
    Option (Ret (Option ℤ) × Caller) :=
  alloc fresh c 0 (CInt.sint 32 regIndex) (CInt.sint 32 size)

/-- `libfree`. -/
def libfree (c : Caller) (regIndex : ℤ) : Option (Ret Unit × Caller) :=
  free c 0 (CInt.sint 32 regIndex)

/-! ## Pages -/

/-- `find_victim_page`: unlink the oldest page of the FIFO list, the last one. -/
def findVictimPage (mm : Mm) : Option (Ret ℤ × Mm) :=
  if mm.fifoPgn.isNull then some (.err, mm)
  else mm.fifoPgn.popLast.map fun r => (.ok r.1, { mm with fifoPgn := r.2 })

theorem findVictimPage_of_null {mm : Mm} (h : mm.fifoPgn = .null) :
    findVictimPage mm = some (.err, mm) := by
  rw [findVictimPage, h]
  rfl

theorem findVictimPage_of_popLast {mm : Mm} {v : ℤ} {rest : Chain ℤ}
    (h : mm.fifoPgn.popLast = some (v, rest)) :
    findVictimPage mm = some (.ok v, { mm with fifoPgn := rest }) := by
  have hsome : ¬ mm.fifoPgn.isNull := by
    intro hnull
    rw [Chain.eq_null_of_isNull hnull] at h
    cases h
  rw [findVictimPage, if_neg hsome, h]
  rfl

/-- Whether `pgd[pgn]` exists: `0 <= pgn < PAGING_MAX_PGN`, an unsigned comparison. -/
def IsPage (pgn : ℤ) : Prop := 0 ≤ pgn ∧ pgn.toNat < pagingMaxPgn

instance (pgn : ℤ) : Decidable (IsPage pgn) := inferInstanceAs (Decidable (_ ∧ _))

/-- The exchange of `pg_getpage`: the victim in RAM frame `vicfpn` goes to swap frame
`swpfpn`, and swap frame `tgtfpn` takes its place.  Only the victim's entry is written
back; `pte` is a local copy. -/
def exchange (c : Caller) (pgn : ℤ) (pte : BitVec 32) (vicpgn vicfpn swpfpn : ℤ) :
    Option (BitVec 32 × Caller) :=
  let tgtfpn := pagingPteSwp pte
  (swapCpPage c.dev .mram vicfpn .activeMswp swpfpn).bind fun dev =>
    (swapCpPage dev .activeMswp tgtfpn .mram vicfpn).map fun dev =>
      let dev := Function.update dev .activeMswp ((dev .activeMswp).putFreefp tgtfpn)
      let vicpte := pteSetSwap (c.mm.pgd vicpgn.toNat) 0 swpfpn
      let mm := { c.mm with
        pgd := Function.update c.mm.pgd vicpgn.toNat vicpte
        fifoPgn := enlistPgnNode c.mm.fifoPgn pgn }
      (pteSetFpn pte vicfpn, { mm := mm, dev := dev })

/-- The branch of `pg_getpage` for a page that is not present.  The value is the local
`pte` at its end. -/
def pageFault (c : Caller) (pgn : ℤ) (pte : BitVec 32) : Option (Ret (BitVec 32) × Caller) :=
  match findVictimPage c.mm with
  | none => none
  | some (.err, mm) => some (.err, c.setMm mm)
  | some (.ok vicpgn, mm) =>
      let c := c.setMm mm
      if ¬ IsPage vicpgn then some (.err, c)
      else if ¬ PagePresent (c.mm.pgd vicpgn.toNat) then some (.err, c)
      else
        let vicfpn := pagingFpn (c.mm.pgd vicpgn.toNat)
        match (c.dev .activeMswp).getFreefp with
        | none => none
        | some (.err, mswp) => some (.err, c.setDev .activeMswp mswp)
        | some (.ok swpfpn, mswp) =>
            (exchange (c.setDev .activeMswp mswp) pgn pte vicpgn vicfpn swpfpn).map fun r =>
              (.ok r.1, r.2)

/-- `pg_getpage`. -/
def pgGetpage (c : Caller) (pgn : ℤ) : Option (Ret ℤ × Caller) :=
  if ¬ IsPage pgn then some (.err, c)
  else
    let pte := c.mm.pgd pgn.toNat
    if PagePresent pte then some (.ok (pagingFpn pte), c)
    else
      match pageFault c pgn pte with
      | none => none
      | some (.err, c) => some (.err, c)
      | some (.ok pte, c) => some (.ok (pagingFpn pte), c)

theorem pgGetpage_of_not_isPage {c : Caller} {pgn : ℤ} (hpage : ¬ IsPage pgn) :
    pgGetpage c pgn = some (.err, c) := if_pos hpage

/-- A page that is present costs no fault. -/
theorem pgGetpage_of_present {c : Caller} {pgn : ℤ} (hpage : IsPage pgn)
    (hpresent : PagePresent (c.mm.pgd pgn.toNat)) :
    pgGetpage c pgn = some (.ok (pagingFpn (c.mm.pgd pgn.toNat)), c) := by
  rw [pgGetpage, if_neg (not_not.mpr hpage)]
  simp only [if_pos hpresent]

/-- A page that is not present costs a fault, and the access returns the frame that the
fault put in its copy of the entry. -/
theorem pgGetpage_of_absent {c : Caller} {pgn : ℤ} (hpage : IsPage pgn)
    (habsent : ¬ PagePresent (c.mm.pgd pgn.toNat)) :
    pgGetpage c pgn =
      (pageFault c pgn (c.mm.pgd pgn.toNat)).map fun r => (r.1.map pagingFpn, r.2) := by
  rw [pgGetpage, if_neg (not_not.mpr hpage)]
  simp only [if_neg habsent]
  split
  · next h => rw [h, Option.map_none]
  · next h =>
      rw [h, Option.map_some]
      rfl
  · next h =>
      rw [h, Option.map_some]
      rfl

/-- `pg_getval`. -/
def pgGetval (c : Caller) (addr : ℤ) : Option (Ret BYTE × Caller) :=
  match pgGetpage c (pagingPgn addr) with
  | none => none
  | some (.err, c) => some (.err, c)
  | some (.ok fpn, c) =>
      ((c.dev .mram).read (physAddr fpn (pagingOffst addr))).map fun r =>
        (r.1, c.setDev .mram r.2)

/-- `pg_setval`. -/
def pgSetval (c : Caller) (addr : ℤ) (value : BYTE) : Option (Ret Unit × Caller) :=
  match pgGetpage c (pagingPgn addr) with
  | none => none
  | some (.err, c) => some (.err, c)
  | some (.ok fpn, c) =>
      ((c.dev .mram).write (physAddr fpn (pagingOffst addr)) value).map fun r =>
        (r.1, c.setDev .mram r.2)

/-! ## Regions -/

/-- The virtual address that `__read` and `__write` pass on, and `none` if the region or
the area is invalid. -/
def regionAddr (c : Caller) (vmaid rgid offset : ℤ) : Option (Option ℤ) :=
  (getSymrgByid c.mm rgid).bind fun currg =>
    (getVmaByNum c.mm vmaid).map fun curVma =>
      match currg, curVma with
      | some rg, some _ => some (CInt.sint 32 (rg.rgStart + offset))
      | _, _ => none

/-- `__read`. -/
def read (c : Caller) (vmaid rgid offset : ℤ) : Option (Ret BYTE × Caller) :=
  (regionAddr c vmaid rgid offset).bind fun addr =>
    match addr with
    | none => some (.err, c)
    | some addr => pgGetval c addr

/-- `__write`. -/
def write (c : Caller) (vmaid rgid offset : ℤ) (value : BYTE) : Option (Ret Unit × Caller) :=
  (regionAddr c vmaid rgid offset).bind fun addr =>
    match addr with
    | none => some (.err, c)
    | some addr => pgSetval c addr value

/-- `print_pgtbl(proc, 0, -1)`: it only prints, but follows the pointer to area 0. -/
def printPgtbl (c : Caller) : Option Unit :=
  (getVmaByNum c.mm 0).bind fun curVma => curVma.map fun _ => ()

/-- `libread`: the value is what `*destination` receives. -/
def libread (c : Caller) (source offset : ℤ) : Option (Ret (BitVec 32) × Caller) :=
  match read c 0 (CInt.sint 32 source) (CInt.sint 32 offset) with
  | none => none
  | some (.err, c) => some (.err, c)
  | some (.ok data, c) => (printPgtbl c).map fun _ => (.ok (data.signExtend 32), c)

/-- `libwrite`. -/
def libwrite (c : Caller) (data : BYTE) (destination offset : ℤ) : Option (Ret Unit × Caller) :=
  (printPgtbl c).bind fun _ =>
    write c 0 (CInt.sint 32 destination) (CInt.sint 32 offset) data

end SimOs.Libmem
