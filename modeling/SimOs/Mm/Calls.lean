import SimOs.Mm.Libmem
import SimOs.Lib.Transition

/-!
# What a call of the allocator can do

Between the calls of a process there is one area, number 0, at the head of `mmap`.
`liballoc_cases` and `libfree_cases` list the possible effects of a call on such a
state, so that no later proof follows `__alloc` through `inc_vma_limit`, `vm_map_ram`,
`alloc_pages_range` and `vmap_page_range` again.

`alloc_pages_range` does not return the frames it took, so `vmap_page_range` is always
called with the empty list: no call of the allocator touches the page table.

## Main definitions

* `Area`: the process has the one area `vma`.
* `AllocCase`, `FreeCase`: the effects of `liballoc` and `libfree`.
* `RegionCall`, `regionSystem`: all sequences of these calls from `init_mm`.
-/

namespace SimOs.Libmem

/-- The process has the one area `vma`, with number 0. -/
structure Area (mm : Mm) (vma : VmArea) : Prop where
  mmap : mm.mmap = .node vma .null
  vmId : vma.vmId = 0

variable {fresh : Fresh} {c c' : Caller} {vma : VmArea}

theorem Area.getVmaByNum {mm : Mm} (h : Area mm vma) : getVmaByNum mm 0 = some (some 0) := by
  have hid : ¬ CInt.sint 32 vma.vmId < 0 := by rw [h.vmId]; decide
  rw [SimOs.getVmaByNum, h.mmap, vmaLoop, if_neg hid]
  rfl

theorem Area.get? {mm : Mm} (h : Area mm vma) : mm.mmap.get? 0 = some vma := by
  rw [h.mmap, Chain.get?]

/-- The pages of a request, as `inc_vma_limit` counts them. -/
def reqPages (size : ℤ) : ℤ := (pagingPageAlignsz (pagingPageAlignsz size)).tdiv pagingPagesz

/-- The area after `inc_vma_limit` has moved its end. -/
def grown (vma : VmArea) (size : ℤ) : VmArea :=
  { vma with vmEnd := CInt.uint 64 (vma.vmEnd + pagingPageAlignsz size) }

/-- What remains of the last page. -/
def restRg (vma : VmArea) (size : ℤ) : VmRg where
  rgStart := CInt.uint 64 (CInt.sint 32 (size + CInt.sint 32 vma.sbrk + 1))
  rgEnd := CInt.uint 64 (CInt.sint 32 (pagingPageAlignsz size + CInt.sint 32 vma.sbrk))

/-- The region that `__alloc` records. -/
def placedRg (vma : VmArea) (size : ℤ) : VmRg where
  rgStart := CInt.uint 64 (CInt.sint 32 vma.sbrk)
  rgEnd := CInt.uint 64 (CInt.sint 32 (CInt.sint 32 vma.sbrk + size))

/-- The area with one more free region. -/
def withFree (vma : VmArea) (rg : VmRg) : VmArea :=
  { vma with vmFreergList := .node rg vma.vmFreergList }

/-- Whether the rest of the last page is enlisted. -/
def RestEnlisted (vma : VmArea) (size : ℤ) : Prop :=
  pagingPageAlignsz size > size ∧ (restRg vma size).rgStart < (restRg vma size).rgEnd

instance (vma : VmArea) (size : ℤ) : Decidable (RestEnlisted vma size) :=
  inferInstanceAs (Decidable (_ ∧ _))

/-- The grown area with the rest of the last page in its free list. -/
def withRest (vma : VmArea) (size : ℤ) : VmArea :=
  if RestEnlisted vma size then withFree (grown vma size) (restRg vma size) else grown vma size

/-- The area after a successful `__alloc`. -/
def placedArea (vma : VmArea) (size : ℤ) : VmArea :=
  { withRest vma size with
    sbrk := CInt.uint 64 ((withRest vma size).sbrk + pagingPageAlignsz size) }

/-- Apart from its free list, the area is the grown one with the break moved. -/
theorem placedArea_fields (vma : VmArea) (size : ℤ) :
    (placedArea vma size).vmId = vma.vmId ∧
    (placedArea vma size).vmEnd = CInt.uint 64 (vma.vmEnd + pagingPageAlignsz size) ∧
    (placedArea vma size).sbrk = CInt.uint 64 (vma.sbrk + pagingPageAlignsz size) := by
  rw [placedArea, withRest]
  split
  · exact ⟨rfl, rfl, rfl⟩
  · exact ⟨rfl, rfl, rfl⟩

theorem Area.placed {mm : Mm} {vma : VmArea} {size : ℤ} (ha : Area mm vma)
    {mm' : Mm} (h : mm'.mmap = .node (placedArea vma size) .null) :
    Area mm' (placedArea vma size) := ⟨h, (placedArea_fields vma size).1.trans ha.vmId⟩

/-- The effects of `__alloc` on area 0. -/
inductive AllocCase (fresh : Fresh) (c : Caller) (vma : VmArea) (rgid size : ℤ) :
    Ret (Option ℤ) × Caller → Prop
  /-- The new pages would meet a free region. -/
  | overlap : AllocCase fresh c vma rgid size (.ok none, c)
  /-- There are not enough frames. -/
  | noFrames (mram : Memphy)
      (hmram : allocPagesRange fresh (c.dev .mram) (reqPages size) .null = some (.err, mram)) :
      AllocCase fresh c vma rgid size
        (.ok none, ⟨{ c.mm with mmap := .node (grown vma size) .null },
          Function.update c.dev .mram mram⟩)
  /-- The region is placed at the break. -/
  | placed (mram : Memphy)
      (hmram : allocPagesRange fresh (c.dev .mram) (reqPages size) .null =
        some (.ok .null, mram)) (hid : IsSymbol rgid) :
      AllocCase fresh c vma rgid size
        (.ok (some (CInt.sint 32 vma.sbrk)),
          ⟨{ c.mm with
              mmap := .node (placedArea vma size) .null
              symrgtbl := Function.update c.mm.symrgtbl rgid (placedRg vma size) },
            Function.update c.dev .mram mram⟩)

/-- `get_free_vmrg_area` never succeeds: it gives up at the last region. -/
theorem freeVmrgLoop_ne_ok (size : ℤ) (rgs : Chain VmRg) (newrg rg : VmRg)
    (hne : rgs.isNull = false) : freeVmrgLoop size rgs newrg ≠ some (.ok rg) := by
  induction rgs generalizing newrg with
  | null => cases hne
  | wild => simp [freeVmrgLoop]
  | node rgit next ih =>
      rw [freeVmrgLoop]
      split
      · simp
      · next hnext => exact ih _ (by simpa using hnext)

theorem getFreeVmrgArea_ne_ok (mm : Mm) (vmaid size : ℤ) (rg : VmRg) :
    getFreeVmrgArea mm vmaid size ≠ some (.ok rg) := by
  rw [getFreeVmrgArea]
  split
  · simp
  · simp
  · next k _ =>
      intro h
      obtain ⟨vma, -, h⟩ := Option.bind_eq_some_iff.mp h
      split at h
      · cases h
      · next hne => exact freeVmrgLoop_ne_ok _ _ _ _ (by simpa using hne) h

/-- The frame list that `alloc_pages_range` returns is the one it was given. -/
theorem allocPagesLoop_ok {frmLst frms : Chain ℤ} {n : ℕ} {got : List ℤ} {mram mram' : Memphy}
    (h : allocPagesLoop fresh frmLst n got mram = some (.ok frms, mram')) : frms = frmLst := by
  induction n generalizing got mram with
  | zero =>
      obtain ⟨hret, -⟩ := Prod.mk.inj (Option.some.inj h)
      exact (Ret.ok.inj hret).symm
  | succ n ih =>
      rw [allocPagesLoop] at h
      split at h
      · cases h
      · exact ih h
      · split at h
        · cases h
        · obtain ⟨_, -, heq⟩ := Option.map_eq_some_iff.mp h
          cases heq

/-- With no frames, `vmap_page_range` maps nothing. -/
theorem vmapPageRange_null (mm : Mm) (addr pgnum : ℤ) :
    ∃ r, vmapPageRange mm addr pgnum .null = some (r, mm) := by
  rw [vmapPageRange]
  split
  · exact ⟨_, rfl⟩
  · exact ⟨_, rfl⟩

/-- `vm_map_ram` takes frames and maps nothing. -/
theorem vmMapRam_eq_some {astart aend mapstart incpgnum : ℤ} {r : Ret Unit}
    (h : vmMapRam fresh c astart aend mapstart incpgnum = some (r, c')) :
    ∃ mram, c' = c.setDev .mram mram ∧
      (r = .err ∧ allocPagesRange fresh (c.dev .mram) incpgnum .null = some (.err, mram) ∨
        r = .ok () ∧
          allocPagesRange fresh (c.dev .mram) incpgnum .null = some (.ok .null, mram)) := by
  rw [vmMapRam] at h
  split at h
  · cases h
  · next mram hmram =>
      obtain ⟨rfl, rfl⟩ := Prod.mk.inj (Option.some.inj h)
      exact ⟨mram, rfl, Or.inl ⟨rfl, hmram⟩⟩
  · next frms mram hmram =>
      obtain rfl := allocPagesLoop_ok hmram
      obtain ⟨ret, hret⟩ := vmapPageRange_null c.mm mapstart incpgnum
      rw [hret] at h
      obtain ⟨rfl, rfl⟩ := Prod.mk.inj (Option.some.inj h)
      exact ⟨mram, rfl, Or.inr ⟨rfl, hmram⟩⟩

/-- `inc_vma_limit` on area 0: it refuses an overlap, and otherwise moves the end of the
area before it asks for frames. -/
theorem incVmaLimit_eq_some {size : ℤ} {r : Ret Unit} (ha : Area c.mm vma)
    (h : incVmaLimit fresh c 0 (pagingPageAlignsz size) = some (r, c')) :
    r = .err ∧ c' = c ∨
    ∃ mram, c' = ⟨{ c.mm with mmap := .node (grown vma size) .null },
        Function.update c.dev .mram mram⟩ ∧
      (r = .err ∧
          allocPagesRange fresh (c.dev .mram) (reqPages size) .null = some (.err, mram) ∨
        r = .ok () ∧
          allocPagesRange fresh (c.dev .mram) (reqPages size) .null =
            some (.ok .null, mram)) := by
  simp only [incVmaLimit, ha.getVmaByNum, ha.get?, Option.bind_some] at h
  split at h
  · cases h
  · obtain ⟨rfl, rfl⟩ := Prod.mk.inj (Option.some.inj h)
    exact Or.inl ⟨rfl, rfl⟩
  · right
    obtain ⟨mram, rfl, hcases⟩ := vmMapRam_eq_some h
    refine ⟨mram, ?_, hcases⟩
    simp only [Caller.modifyVma, Caller.setMm, Caller.setDev, ha.mmap, Chain.modify, grown]

/-- Enlisting on area 0. -/
theorem enlistVmFreergList_eq (rg : VmRg) (mm : Mm) (ha : Area mm vma) :
    enlistVmFreergList mm rg =
      if rg.rgStart ≥ rg.rgEnd then some (.err, mm)
      else some (.ok (), { mm with mmap := .node (withFree vma rg) .null }) := by
  rw [enlistVmFreergList, ha.get?, Option.map_some]
  split
  · rfl
  · rw [ha.mmap]
    rfl

/-- What `__alloc` does with the rest of the last page. -/
theorem enlistRest_eq {size : ℤ} {mm : Mm} (ha : Area mm (grown vma size)) :
    (if pagingPageAlignsz size > size then
      (enlistVmFreergList mm (restRg vma size)).map Prod.snd else some mm) =
    some { mm with mmap := .node (withRest vma size) .null } := by
  rw [enlistVmFreergList_eq (restRg vma size) mm ha]
  by_cases hgt : pagingPageAlignsz size > size
  · rw [if_pos hgt]
    by_cases hlt : (restRg vma size).rgStart < (restRg vma size).rgEnd
    · rw [if_neg (not_le.mpr hlt), withRest, if_pos ⟨hgt, hlt⟩]
      rfl
    · rw [if_pos (not_lt.mp hlt), withRest, if_neg fun h => hlt h.2, ← ha.mmap]
      rfl
  · rw [if_neg hgt, withRest, if_neg fun h => hgt h.1, ← ha.mmap]

/-- The last part of `__alloc`. -/
theorem allocAtBrk_eq_some {rgid size : ℤ} {r : Ret (Option ℤ) × Caller}
    (ha : Area c.mm (grown vma size))
    (h : allocAtBrk c 0 rgid size (pagingPageAlignsz size) (CInt.sint 32 vma.sbrk) = some r) :
    IsSymbol rgid ∧ r = (.ok (some (CInt.sint 32 vma.sbrk)),
      ⟨{ c.mm with
          mmap := .node (placedArea vma size) .null
          symrgtbl := Function.update c.mm.symrgtbl rgid (placedRg vma size) }, c.dev⟩) := by
  obtain ⟨mm, hmm, h⟩ := Option.bind_eq_some_iff.mp h
  obtain rfl := Option.some.inj (hmm.symm.trans (enlistRest_eq ha))
  obtain ⟨mm', hset, rfl⟩ := Option.map_eq_some_iff.mp h
  rw [setSymrg] at hset
  split at hset
  · next hid =>
      obtain rfl := Option.some.inj hset
      exact ⟨hid, rfl⟩
  · cases hset

/-- **What `__alloc` can do.** -/
theorem alloc_cases {rgid size : ℤ} {r : Ret (Option ℤ) × Caller} (ha : Area c.mm vma)
    (h : alloc fresh c 0 rgid size = some r) : AllocCase fresh c vma rgid size r := by
  rw [alloc] at h
  split at h
  · cases h
  · next rg hrg => exact absurd hrg (getFreeVmrgArea_ne_ok _ _ _ _)
  · simp only [ha.getVmaByNum, ha.get?, Option.bind_some] at h
    split at h
    · cases h
    · next c₁ hinc =>
        obtain rfl := Option.some.inj h
        rcases incVmaLimit_eq_some ha hinc with ⟨-, rfl⟩ | ⟨mram, rfl, ⟨-, hmram⟩ | ⟨hno, -⟩⟩
        · exact .overlap
        · exact .noFrames mram hmram
        · cases hno
    · next c₁ hinc =>
        rcases incVmaLimit_eq_some ha hinc with ⟨hno, -⟩ | ⟨mram, rfl, ⟨hno, -⟩ | ⟨-, hmram⟩⟩
        · cases hno
        · cases hno
        · obtain ⟨hid, rfl⟩ := allocAtBrk_eq_some ⟨rfl, ha.vmId⟩ h
          exact .placed mram hmram hid

/-- The effects of `__free` on area 0. -/
inductive FreeCase (c : Caller) (vma : VmArea) (rgid : ℤ) : Ret Unit × Caller → Prop
  /-- There is no such region, or it is empty. -/
  | empty (hno : ¬ IsSymbol rgid ∨ (c.mm.symrgtbl rgid).rgStart ≥ (c.mm.symrgtbl rgid).rgEnd) :
      FreeCase c vma rgid (.err, c)
  /-- The region moves to the free list. -/
  | moved (hid : IsSymbol rgid)
      (hlt : (c.mm.symrgtbl rgid).rgStart < (c.mm.symrgtbl rgid).rgEnd) :
      FreeCase c vma rgid (.ok (), c.setMm { c.mm with
        mmap := .node (withFree vma (c.mm.symrgtbl rgid)) .null
        symrgtbl := Function.update c.mm.symrgtbl rgid ⟨0, 0⟩ })

/-- **What `__free` does**, on every argument. -/
theorem free_cases (rgid : ℤ) (ha : Area c.mm vma) :
    ∃ r, free c 0 rgid = some r ∧ FreeCase c vma rgid r := by
  by_cases hid : IsSymbol rgid
  · by_cases hlt : (c.mm.symrgtbl rgid).rgStart < (c.mm.symrgtbl rgid).rgEnd
    · refine ⟨_, ?_, .moved hid hlt⟩
      rw [free, if_neg (not_not.mpr hid)]
      simp only [if_neg (not_le.mpr hlt), ha.getVmaByNum, enlistVmFreergList_eq _ c.mm ha, setSymrg,
        if_pos hid, ge_iff_le, Option.bind_some, Option.map_some]
    · refine ⟨_, ?_, .empty (Or.inr (not_lt.mp hlt))⟩
      rw [free, if_neg (not_not.mpr hid)]
      simp only [ge_iff_le, if_pos (not_lt.mp hlt)]
  · exact ⟨_, by rw [free, if_pos hid], .empty (Or.inl hid)⟩

/-! ## Sequences of calls -/

/-- A call of a process on its regions. -/
inductive RegionCall
  | liballoc (size regIndex : ℤ)
  | libfree (regIndex : ℤ)
  deriving DecidableEq

/-- The arguments in question: the ids of the symbol table, and sizes up to a bound. -/
def RegionCall.Admissible (maxSize : ℤ) : RegionCall → Prop
  | .liballoc size regIndex => IsSymbol regIndex ∧ 0 ≤ size ∧ size ≤ maxSize
  | .libfree regIndex => IsSymbol regIndex

instance (maxSize : ℤ) (call : RegionCall) : Decidable (call.Admissible maxSize) := by
  cases call <;> exact inferInstanceAs (Decidable (_ ∧ _))

/-- The effect of a call. -/
def regionCall (fresh : Fresh) (c : Caller) : RegionCall → Option Caller
  | .liballoc size regIndex => (liballoc fresh c size regIndex).map Prod.snd
  | .libfree regIndex => (libfree c regIndex).map Prod.snd

/-- All sequences of calls of a process from `init_mm`, on devices such as `Devices`
says, with cleared memory. -/
def regionSystem (Devices : (Dev → Memphy) → Prop) (maxSize : ℤ) : Lts Caller RegionCall where
  init c := c.mm = initMm .zeroed ∧ Devices c.dev
  step c call := if call.Admissible maxSize then regionCall .zeroed c call else none

theorem area_initMm : ∃ vma, Area (initMm fresh) vma := ⟨_, rfl, rfl⟩

/-- The ids of the symbol table are not changed by the conversion to `int`. -/
theorem IsSymbol.sint {rgid : ℤ} (h : IsSymbol rgid) : CInt.sint 32 rgid = rgid := by
  obtain ⟨h0, hlt⟩ := h
  rw [pagingMaxSymtblSz] at hlt
  exact CInt.sint_eq (by omega) (by omega)

/-- Nor are sizes below 2^31. -/
theorem liballoc_eq {size rgid : ℤ} (hid : IsSymbol rgid) (h0 : 0 ≤ size) (hlt : size < 2 ^ 31) :
    liballoc fresh c size rgid = alloc fresh c 0 rgid size := by
  rw [liballoc, hid.sint, CInt.sint_eq (by omega) (by omega)]

end SimOs.Libmem
