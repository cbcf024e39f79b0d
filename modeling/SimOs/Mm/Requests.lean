import SimOs.Mm.Coverage
import SimOs.Mm.NewProcess

/-!
# What the calls of a process take from the others

The address space of a process is its own; of what processes share, the calls of the
allocator change the list of free frames and nothing else.  If no free region reaches
past the break, the test for overlaps in `inc_vma_limit` always passes, and so every request
takes the frames it asks for from the front of the list, or all that are left.

## Main definitions

* `Space`: the layout of an address space, over the free frames `frames`.
* `takeFrames`: what a request leaves of them.
* `Space.incVmaLimit_eq`, `Space.alloc_eq`: the calls, as equations.
* `Space.memmap_takes`: what `memmap` leaves of them.
* `Space.dev`: other processes take frames.
* `Absent.liballoc`, `Absent.libfree`, `Absent.memmap`: no call makes a page present.
-/

namespace SimOs.Libmem

variable {c c' : Caller} {vma : VmArea} {rgs : List VmRg} {frames : List ℤ}

/-- The address space of a process whose free regions do not reach past the break. -/
structure Space (c : Caller) (vma : VmArea) (rgs : List VmRg) (frames : List ℤ) : Prop
    extends Layout c vma rgs frames where
  ends : ∀ rg ∈ rgs, rg.rgEnd ≤ vma.sbrk

/-- The devices after a request for `n` frames, of which there were `frames`. -/
def takeFrames (c : Caller) (frames : List ℤ) (n : ℕ) : Dev → Memphy :=
  Function.update c.dev .mram
    { c.dev .mram with freeFpList := Chain.ofList (frames.drop n) }

@[simp] theorem mram_takeFrames (c : Caller) (frames : List ℤ) (n : ℕ) :
    takeFrames c frames n .mram =
      { c.dev .mram with freeFpList := Chain.ofList (frames.drop n) } :=
  Function.update_self ..

/-- The frames that `inc_vma_limit` asks for. -/
def incPages (incSz : ℤ) : ℕ := ((pagingPageAlignsz incSz).tdiv pagingPagesz).toNat

theorem incPages_align (size : ℤ) : incPages (pagingPageAlignsz size) = (reqPages size).toNat := rfl

/-- The test for overlaps passes if the new pages begin past every free region. -/
theorem validateLoop_past {vmastart : ℤ} (vmaend : ℤ)
    (h : ∀ rg ∈ rgs, rg.rgEnd ≤ CInt.uint 64 vmastart) :
    validateLoop vmastart vmaend (Chain.ofList rgs) = some (.ok ()) := by
  induction rgs with
  | nil => rfl
  | cons rg rgs ih =>
      rw [Chain.ofList_cons, validateLoop, if_pos (Or.inr (h rg List.mem_cons_self))]
      exact ih fun rg' hrg' => h rg' (List.mem_cons_of_mem _ hrg')

/-- A frame request, with cleared memory. -/
theorem allocPagesRange_eq {mram : Memphy} (h : mram.freeFpList = Chain.ofList frames)
    (reqPgnum : ℤ) :
    allocPagesRange .zeroed mram reqPgnum .null =
      some (if reqPgnum.toNat ≤ frames.length then .ok .null else .err,
        { mram with freeFpList := Chain.ofList (frames.drop reqPgnum.toNat) }) := by
  rw [allocPagesRange, allocPagesLoop_ofList .null _ [] h]
  split
  · rfl
  · next hfew => rw [List.drop_of_length_le (by omega), Chain.ofList_nil]

/-- `vm_map_ram` takes frames and maps nothing. -/
theorem vmMapRam_eq (h : (c.dev .mram).freeFpList = Chain.ofList frames)
    (astart aend mapstart incpgnum : ℤ) :
    vmMapRam .zeroed c astart aend mapstart incpgnum =
      some (if incpgnum.toNat ≤ frames.length then .ok () else .err,
        ⟨c.mm, takeFrames c frames incpgnum.toNat⟩) := by
  rw [vmMapRam, allocPagesRange_eq h]
  by_cases hmany : incpgnum.toNat ≤ frames.length
  · obtain ⟨r, hr⟩ := vmapPageRange_null c.mm mapstart incpgnum
    simp only [if_pos hmany, hr, Option.map_some]
    rfl
  · simp only [if_neg hmany]
    rfl

namespace Space

theorem sbrk_lt (h : Space c vma rgs frames) : vma.sbrk < 2 ^ 31 := by
  have hroom := h.room
  have hmax := h.maxsz_lt
  have hpage : (pagingPagesz : ℤ) = 256 := rfl
  rw [hpage] at hroom
  omega

/-- The break fits in an `int`. -/
theorem sint_sbrk (h : Space c vma rgs frames) : CInt.sint 32 vma.sbrk = vma.sbrk := by
  have hlt := h.sbrk_lt
  have hbrk := h.brk_nonneg
  exact CInt.sint_eq (by omega) (by omega)

/-- **`inc_vma_limit`** moves the end of the area and takes the frames it asks for, or all. -/
theorem incVmaLimit_eq (h : Space c vma rgs frames) (incSz : ℤ) :
    incVmaLimit .zeroed c 0 incSz =
      some (if incPages incSz ≤ frames.length then .ok () else .err,
        ⟨{ c.mm with mmap := .node (enlarged vma incSz) .null },
          takeFrames c frames (incPages incSz)⟩) := by
  have hpast : ∀ rg ∈ rgs, rg.rgEnd ≤ CInt.uint 64 (CInt.sint 32 vma.sbrk) := by
    have hbrk := h.brk_nonneg
    have hlt := h.sbrk_lt
    rw [h.sint_sbrk, CInt.uint_eq hbrk (by omega)]
    exact h.ends
  have hvalid : ∀ vmaend, validateLoop (CInt.sint 32 vma.sbrk) vmaend vma.vmFreergList =
      some (.ok ()) := by
    intro vmaend
    rw [h.free_eq]
    exact validateLoop_past vmaend hpast
  have hmap := fun astart aend => vmMapRam_eq (c := c.setMm { c.mm with
    mmap := .node (enlarged vma incSz) .null }) h.frames_eq astart aend (CInt.sint 32 vma.vmEnd)
    ((pagingPageAlignsz incSz).tdiv pagingPagesz)
  simp only [incVmaLimit, validateOverlapVmArea, h.area.getVmaByNum, h.area.get?,
    Option.bind_some, getVmAreaNodeAtBrk, hvalid, Caller.modifyVma]
  rw [h.area.mmap]
  exact hmap _ _

/-- **`__alloc`** places the region at the break if there are frames enough. -/
theorem alloc_eq (h : Space c vma rgs frames) (rgid size : ℤ) :
    alloc .zeroed c 0 rgid size =
      if (reqPages size).toNat ≤ frames.length then
        if IsSymbol rgid then some (.ok (some (CInt.sint 32 vma.sbrk)),
          ⟨{ c.mm with
              mmap := .node (placedArea vma size) .null
              symrgtbl := Function.update c.mm.symrgtbl rgid (placedRg vma size) },
            takeFrames c frames (reqPages size).toNat⟩)
        else none
      else some (.ok none, ⟨{ c.mm with mmap := .node (grown vma size) .null },
        takeFrames c frames (reqPages size).toNat⟩) := by
  have hfree : getFreeVmrgArea c.mm 0 size = some .err := by
    simp only [getFreeVmrgArea, h.area.getVmaByNum, h.area.get?, Option.bind_some, h.free_eq]
    cases rgs with
    | nil => rfl
    | cons rg rgs => exact freeVmrgLoop_ofList _ (List.cons_ne_nil rg rgs) _
  have hinc := h.incVmaLimit_eq (pagingPageAlignsz size)
  rw [incPages_align] at hinc
  simp only [alloc, hfree, h.area.getVmaByNum, h.area.get?, Option.bind_some, hinc]
  by_cases hmany : (reqPages size).toNat ≤ frames.length
  · have harea : Area { c.mm with mmap := .node (grown vma size) .null } (grown vma size) :=
      ⟨rfl, h.area.vmId⟩
    have hrest := enlistRest_eq harea
    simp only [restRg, grown] at hrest
    simp only [if_pos hmany, allocAtBrk, enlarged, hrest, Option.bind_some, setSymrg]
    split
    · rfl
    · rfl
  · simp only [if_neg hmany, enlarged, grown]

/-- **Frames that others take**: the space does not see them. -/
theorem dev (h : Space c vma rgs frames) {frames' : List ℤ} (hmm : c'.mm = c.mm)
    (hfree : (c'.dev .mram).freeFpList = Chain.ofList frames')
    (hlen : frames'.length ≤ frames.length)
    (hmax : (c'.dev .mram).maxsz = (c.dev .mram).maxsz) : Space c' vma rgs frames' where
  area := hmm ▸ h.area
  free_eq := h.free_eq
  frames_eq := hfree
  brk_nonneg := h.brk_nonneg
  brk_dvd := h.brk_dvd
  room := by
    have hroom := h.room
    simp only [pagingPagesz] at hroom ⊢
    omega
  maxsz_lt := hmax ▸ h.maxsz_lt
  holders_le := hmm ▸ h.holders_le
  inside := hmm ▸ h.inside
  ends := h.ends

/-- The end of the area moves, and frames are taken. -/
theorem enlarged (h : Space c vma rgs frames) (incSz : ℤ) (n : ℕ) :
    Space ⟨{ c.mm with mmap := .node (enlarged vma incSz) .null }, takeFrames c frames n⟩
      (Libmem.enlarged vma incSz) rgs (frames.drop n) := by
  have hholders : ∀ a, holders { c.mm with mmap := .node (Libmem.enlarged vma incSz) .null } a =
      holders c.mm a := by
    intro a
    rw [holders, holders, freeRegions, freeRegions, h.area.get?]
    rfl
  have hsame : Space ⟨{ c.mm with mmap := .node (Libmem.enlarged vma incSz) .null }, c.dev⟩
      (Libmem.enlarged vma incSz) rgs frames :=
    { area := ⟨rfl, h.area.vmId⟩
      free_eq := h.free_eq
      frames_eq := h.frames_eq
      brk_nonneg := h.brk_nonneg
      brk_dvd := h.brk_dvd
      room := h.room
      maxsz_lt := h.maxsz_lt
      holders_le := fun a => (hholders a).symm ▸ h.holders_le a
      inside := fun a hout => (hholders a).trans (h.inside a hout)
      ends := h.ends }
  refine hsame.dev rfl ?_ ?_ ?_
  · simp only [mram_takeFrames]
  · rw [List.length_drop]
    omega
  · simp only [mram_takeFrames]

theorem reqPages_le (h : Space c vma rgs frames) {size : ℤ}
    (hmany : (reqPages size).toNat ≤ frames.length) : reqPages size ≤ (freeFrames c).length := by
  rw [freeFrames, h.frames_eq, Chain.toList_ofList]
  omega

/-- The break moves by the pages of the region. -/
theorem sbrk_placedArea (h : Space c vma rgs frames) {size : ℤ} (h0 : 0 ≤ size)
    (hle : size ≤ 2 ^ 31 - 256) (hmany : (reqPages size).toNat ≤ frames.length) :
    (placedArea vma size).sbrk = vma.sbrk + pagingPagesz * (reqPages size).toNat := by
  obtain ⟨-, -, hbrk⟩ := h.placed_at h0 hle (h.reqPages_le hmany)
  rw [hbrk, reqPages_eq h0 hle, pagingPagesz]
  omega

/-- A region is placed at the break. -/
theorem placed (h : Space c vma rgs frames) {rgid size : ℤ} (hid : IsSymbol rgid)
    (h0 : 0 ≤ size) (hle : size ≤ 2 ^ 31 - 256)
    (hmany : (reqPages size).toNat ≤ frames.length) :
    ∃ rgs', Space ⟨{ c.mm with
        mmap := .node (placedArea vma size) .null
        symrgtbl := Function.update c.mm.symrgtbl rgid (placedRg vma size) },
      takeFrames c frames (reqPages size).toNat⟩ (placedArea vma size) rgs'
      (frames.drop (reqPages size).toNat) := by
  have hmram := allocPagesRange_eq h.frames_eq (reqPages size)
  rw [if_pos hmany] at hmram
  obtain ⟨rgs', fs', hlayout⟩ := h.toLayout.placed hid h0 hle hmram
  have hfs : fs' = frames.drop (reqPages size).toNat := by
    have heq := hlayout.frames_eq
    simp only [Function.update_self] at heq
    exact (Chain.ofList_injective heq).symm
  subst hfs
  refine ⟨rgs', hlayout, ?_⟩
  -- The rest of the last page ends at the new break, and the others at the old one.
  have hrgs : rgs' = if RestEnlisted vma size then restRg vma size :: rgs else rgs :=
    Chain.ofList_injective (hlayout.free_eq.symm.trans (withRest_free size h.free_eq))
  obtain ⟨-, hrest, hbrk⟩ := h.placed_at h0 hle (h.reqPages_le hmany)
  have hold : ∀ rg ∈ rgs, rg.rgEnd ≤ (placedArea vma size).sbrk := by
    intro rg hrg
    have := h.ends rg hrg
    omega
  intro rg hrg
  rw [hrgs] at hrg
  split at hrg
  · rcases List.mem_cons.mp hrg with rfl | hrg
    · rw [hrest, hbrk]
    · exact hold rg hrg
  · exact hold rg hrg

/-- A region moves to the free list. -/
theorem moved (h : Space c vma rgs frames) {rgid : ℤ} (hid : IsSymbol rgid)
    (hlt : (c.mm.symrgtbl rgid).rgStart < (c.mm.symrgtbl rgid).rgEnd) :
    Space (c.setMm { c.mm with
        mmap := .node (withFree vma (c.mm.symrgtbl rgid)) .null
        symrgtbl := Function.update c.mm.symrgtbl rgid ⟨0, 0⟩ })
      (withFree vma (c.mm.symrgtbl rgid)) (c.mm.symrgtbl rgid :: rgs) frames where
  toLayout := h.toLayout.moved hid
  ends := by
    have hin := h.within hlt fun a ha => holders_ne_zero_of_recorded hid ha
    rw [h.brk_eq] at hin
    intro rg hrg
    rcases List.mem_cons.mp hrg with rfl | hrg
    · exact hin.2
    · exact h.ends rg hrg

end Space

/-! ## The effect of a call -/

/-- A call that took `n` of the free frames `frames`: no page has become present, and all the
process did else is in its own address space. -/
structure Takes (n : ℕ) (frames : List ℤ) (c c' : Caller) : Prop where
  space : ∃ vma rgs, Space c' vma rgs (frames.drop n)
  pgd : c'.mm.pgd = c.mm.pgd
  fifoPgn : c'.mm.fifoPgn = c.mm.fifoPgn
  maxsz : (c'.dev .mram).maxsz = (c.dev .mram).maxsz
  /-- The break has moved by no more than these frames. -/
  brk : brk c'.mm + pagingPagesz * (frames.drop n).length ≤ brk c.mm + pagingPagesz * frames.length

namespace Takes
variable {n : ℕ}

theorem refl (h : Space c vma rgs frames) : Takes 0 frames c c :=
  ⟨⟨vma, rgs, h⟩, rfl, rfl, rfl, le_rfl⟩

/-- A call that leaves the memory management state, the list and the size of RAM. -/
theorem of_dev (h : Space c vma rgs frames) (hmm : c'.mm = c.mm)
    (hfree : (c'.dev .mram).freeFpList = (c.dev .mram).freeFpList)
    (hmax : (c'.dev .mram).maxsz = (c.dev .mram).maxsz) : Takes 0 frames c c' :=
  ⟨⟨vma, rgs, h.dev hmm (hfree.trans h.frames_eq) le_rfl hmax⟩, by rw [hmm], by rw [hmm], hmax,
    by rw [hmm, List.drop_zero]⟩

/-- A call after which the area ends elsewhere. -/
theorem enlarged (h : Space c vma rgs frames) (incSz : ℤ) (n : ℕ) :
    Takes n frames c ⟨{ c.mm with mmap := .node (Libmem.enlarged vma incSz) .null },
      takeFrames c frames n⟩ := by
  have hspace := h.enlarged incSz n
  refine ⟨⟨_, rgs, hspace⟩, rfl, rfl, ?_, ?_⟩
  · simp only [mram_takeFrames]
  · have hlen : (frames.drop n).length ≤ frames.length := by simp
    rw [hspace.brk_eq, h.brk_eq]
    simp only [Libmem.enlarged, pagingPagesz]
    omega

theorem absent (h : Takes n frames c c') (ha : Absent c) : Absent c' where
  area := by
    obtain ⟨vma, rgs, hspace⟩ := h.space
    exact ⟨vma, hspace.area⟩
  pgd := by
    rw [h.pgd]
    exact ha.pgd
  fifoPgn := h.fifoPgn.trans ha.fifoPgn

end Takes

namespace Space

/-- A size of at most `2 ^ 31 - 256` is not changed by the conversion to `int`. -/
theorem sint_size {size : ℤ} (h0 : 0 ≤ size) (hle : size ≤ 2 ^ 31 - 256) :
    CInt.sint 32 size = size := CInt.sint_eq (by omega) (by omega)

/-- **`liballoc`** takes the frames of its pages, or all that are left. -/
theorem liballoc_takes (h : Space c vma rgs frames) {rgid size : ℤ} (h0 : 0 ≤ size)
    (hle : size ≤ 2 ^ 31 - 256) {r : Ret (Option ℤ) × Caller}
    (hr : liballoc .zeroed c size rgid = some r) : Takes (reqPages size).toNat frames c r.2 := by
  rw [liballoc, sint_size h0 hle, h.alloc_eq] at hr
  split at hr
  · next hmany =>
      obtain ⟨hid, hr⟩ := Option.ite_none_right_eq_some.mp hr
      obtain rfl := Option.some.inj hr
      obtain ⟨rgs', hplaced⟩ := h.placed hid h0 hle hmany
      refine ⟨⟨_, rgs', hplaced⟩, rfl, rfl, ?_, ?_⟩
      · simp only [mram_takeFrames]
      · rw [hplaced.brk_eq, h.brk_eq, h.sbrk_placedArea h0 hle hmany, List.length_drop,
          pagingPagesz]
        omega
  · obtain rfl := Option.some.inj hr
    exact .enlarged h _ _

/-- It is defined for the ids of the table. -/
theorem liballoc_isSome (h : Space c vma rgs frames) {rgid : ℤ} (hid : IsSymbol rgid)
    (size : ℤ) : (liballoc .zeroed c size rgid).isSome := by
  rw [liballoc, hid.sint, h.alloc_eq, if_pos hid]
  split
  · rfl
  · rfl

/-- **`libfree`** takes none. -/
theorem libfree_takes (h : Space c vma rgs frames) (rgid : ℤ) :
    ∃ r, libfree c rgid = some r ∧ Takes 0 frames c r.2 := by
  obtain ⟨r, hr, hcase⟩ := free_cases (CInt.sint 32 rgid) h.area
  refine ⟨r, hr, ?_⟩
  cases hcase with
  | empty _ => exact .refl h
  | moved hid hlt =>
      have hmoved := h.moved hid hlt
      refine ⟨⟨_, _, hmoved⟩, rfl, rfl, rfl, ?_⟩
      rw [hmoved.brk_eq, h.brk_eq]
      exact le_rfl

end Space

/-- `inc_vma_limit` knows no area but number 0, which it takes for all negative numbers. -/
theorem Area.incVmaLimit_eq_some (ha : Area c.mm vma) {fresh : Fresh} {vmaid incSz : ℤ}
    {r : Ret Unit × Caller} (hr : incVmaLimit fresh c vmaid incSz = some r) :
    incVmaLimit fresh c 0 incSz = some r := by
  have hnum : SimOs.getVmaByNum c.mm vmaid = none ∨
      SimOs.getVmaByNum c.mm vmaid = some (some 0) := by
    have hloop : SimOs.getVmaByNum c.mm vmaid =
        (if CInt.sint 32 vma.vmId < vmaid then none else some 0).map some := by
      rw [SimOs.getVmaByNum, ha.mmap]
      rfl
    rw [hloop]
    split
    · exact Or.inl rfl
    · exact Or.inr rfl
  rcases hnum with hnum | hnum
  · simp only [incVmaLimit, hnum] at hr
    cases hr
  · have hzero := ha.getVmaByNum
    simp only [incVmaLimit, validateOverlapVmArea, hnum] at hr
    simp only [incVmaLimit, validateOverlapVmArea, hzero]
    exact hr

/-- The frames that `memmap` asks for. -/
def memmapPages (regs : ScRegs) : ℕ :=
  if regs.a1.toInt = sysmemIncOp then incPages regs.a3.toInt else 0

namespace Space

/-- **`memmap`**, with any arguments for which it is defined: `SYSMEM_INC_OP` takes frames, and
the other operations change bytes at most. -/
theorem memmap_takes (h : Space c vma rgs frames) {regs : ScRegs} {r : ScRegs × Caller}
    (hr : sysMemmap .zeroed c regs = some r) : Takes (memmapPages regs) frames c r.2 := by
  simp only [sysMemmap] at hr
  rw [memmapPages]
  by_cases hinc : regs.a1.toInt = sysmemIncOp
  · have hmap : ¬ regs.a1.toInt = sysmemMapOp := by rw [hinc]; decide
    rw [if_neg hmap, if_pos hinc] at hr
    rw [if_pos hinc]
    obtain ⟨u, hu, rfl⟩ := Option.map_eq_some_iff.mp hr
    have heq := (h.incVmaLimit_eq regs.a3.toInt).symm.trans (h.area.incVmaLimit_eq_some hu)
    obtain rfl := Option.some.inj heq
    exact .enlarged h _ _
  rw [if_neg hinc] at hr ⊢
  by_cases hmap : regs.a1.toInt = sysmemMapOp
  · rw [if_pos hmap] at hr
    obtain rfl := Option.some.inj hr
    exact .refl h
  rw [if_neg hmap] at hr
  by_cases hswp : regs.a1.toInt = sysmemSwpOp
  · rw [if_pos hswp] at hr
    obtain ⟨c₁, hc₁, rfl⟩ := Option.map_eq_some_iff.mp hr
    obtain ⟨dev, hdev, rfl⟩ := Option.map_eq_some_iff.mp hc₁
    have hram : dev .mram = c.dev .mram := (swapCpPage_sameBut hdev).2 .mram (by decide)
    exact .of_dev h rfl (congrArg Memphy.freeFpList hram) (congrArg Memphy.maxsz hram)
  rw [if_neg hswp] at hr
  by_cases hread : regs.a1.toInt = sysmemIoRead
  · rw [if_pos hread] at hr
    split at hr
    · next value mram hget =>
        obtain rfl := Option.some.inj hr
        obtain ⟨rfl, -⟩ := Memphy.read_eq_some hget
        simp only [Caller.setDev_dev]
        exact .refl h
    · cases hr
  rw [if_neg hread] at hr
  by_cases hwrite : regs.a1.toInt = sysmemIoWrite
  · rw [if_pos hwrite] at hr
    obtain ⟨u, hu, rfl⟩ := Option.map_eq_some_iff.mp hr
    have hsame : u.2.freeFpList = (c.dev .mram).freeFpList ∧ u.2.maxsz = (c.dev .mram).maxsz := by
      rcases Memphy.write_eq_some hu with ⟨-, hu⟩ | ⟨-, -, hu⟩ <;> rw [hu] <;> exact ⟨rfl, rfl⟩
    refine .of_dev h rfl ?_ ?_
    · rw [Caller.dev_setDev_self]
      exact hsame.1
    · rw [Caller.dev_setDev_self]
      exact hsame.2
  · rw [if_neg hwrite] at hr
    obtain rfl := Option.some.inj hr
    exact .refl h

end Space

/-! ## Calls without a page -/

/-- A call of the allocator, with cleared memory, changes no byte of RAM. -/
theorem storage_allocPagesLoop {frmLst : Chain ℤ} {n : ℕ} {got : List ℤ} {mram : Memphy}
    {r : Ret (Chain ℤ) × Memphy} (h : allocPagesLoop .zeroed frmLst n got mram = some r) :
    r.2.storage = mram.storage := by
  induction n generalizing got mram with
  | zero =>
      obtain rfl := Option.some.inj h
      rfl
  | succ n ih =>
      rw [allocPagesLoop, Memphy.getFreefp] at h
      cases hfree : mram.freeFpList with
      | null =>
          simp only [hfree] at h
          obtain rfl := Option.some.inj h
          rfl
      | wild =>
          simp only [hfree] at h
          cases h
      | node fpn next =>
          simp only [hfree] at h
          have hrest := ih h
          exact hrest

namespace Absent

/-- The pages are in the memory management state. -/
theorem of_mm (h : Absent c) (hmm : c'.mm = c.mm) : Absent c' where
  area := hmm ▸ h.area
  pgd := hmm ▸ h.pgd
  fifoPgn := hmm ▸ h.fifoPgn

/-- **`liballoc`** makes no page present and changes no byte, whatever it is given. -/
theorem liballoc (h : Absent c) {size rgid : ℤ} {r : Ret (Option ℤ) × Caller}
    (hr : liballoc .zeroed c size rgid = some r) :
    Absent r.2 ∧ ∀ d, (r.2.dev d).storage = (c.dev d).storage := by
  obtain ⟨vma, ha⟩ := h.area
  refine ⟨(alloc_keepsPages ha hr).absent h, ?_⟩
  have hram : ∀ mram, mram.storage = (c.dev .mram).storage →
      ∀ d, (Function.update c.dev .mram mram d).storage = (c.dev d).storage := by
    intro mram hmram d
    cases d with
    | mram => rw [Function.update_self, hmram]
    | activeMswp => rw [Function.update_of_ne (by decide)]
  have hcase := alloc_cases ha hr
  cases hcase with
  | overlap => exact fun _ => rfl
  | noFrames mram hmram => exact hram mram (storage_allocPagesLoop hmram)
  | placed mram hmram _ => exact hram mram (storage_allocPagesLoop hmram)

/-- So does **`libfree`**. -/
theorem libfree (h : Absent c) {rgid : ℤ} {r : Ret Unit × Caller}
    (hr : libfree c rgid = some r) :
    Absent r.2 ∧ ∀ d, (r.2.dev d).storage = (c.dev d).storage := by
  obtain ⟨vma, ha⟩ := h.area
  refine ⟨(free_keepsPages ha hr).absent h, ?_⟩
  obtain ⟨r', hr', hcase⟩ := free_cases (CInt.sint 32 rgid) ha
  obtain rfl := Option.some.inj (hr'.symm.trans hr)
  cases hcase with
  | empty _ => exact fun _ => rfl
  | moved _ _ => exact fun _ => rfl

/-- **`memmap`** makes no page present, whatever it is given. -/
theorem memmap (h : Absent c) {regs : ScRegs} {r : ScRegs × Caller}
    (hr : sysMemmap .zeroed c regs = some r) : Absent r.2 := by
  simp only [sysMemmap] at hr
  split at hr
  · obtain rfl := Option.some.inj hr
    exact h
  split at hr
  · obtain ⟨⟨ret, c₁⟩, hinc, rfl⟩ := Option.map_eq_some_iff.mp hr
    obtain ⟨vma, ha⟩ := h.area
    rcases incVmaLimit_cases ha (ha.incVmaLimit_eq_some hinc) with ⟨-, -, rfl⟩ | ⟨-, hmm, -⟩
    · exact h
    · have hpages : Absent ⟨c₁.mm, c.dev⟩ := by
        rw [hmm]
        exact ⟨⟨enlarged vma _, rfl, ha.vmId⟩, h.pgd, h.fifoPgn⟩
      exact hpages.of_mm rfl
  split at hr
  · obtain ⟨c₁, hc₁, rfl⟩ := Option.map_eq_some_iff.mp hr
    obtain ⟨dev, -, rfl⟩ := Option.map_eq_some_iff.mp hc₁
    exact h.of_mm rfl
  split at hr
  · split at hr
    · obtain rfl := Option.some.inj hr
      exact h.of_mm rfl
    · cases hr
  split at hr
  · obtain ⟨u, -, rfl⟩ := Option.map_eq_some_iff.mp hr
    exact h.of_mm rfl
  · obtain rfl := Option.some.inj hr
    exact h

/-- **`libread`** fails, whatever it is given. -/
theorem libread_eq_some (h : Absent c) {source offset : ℤ}
    {r : Ret (BitVec 32) × Caller} (hr : Libmem.libread c source offset = some r) :
    r = (.err, c) := by
  unfold Libmem.libread at hr
  split at hr
  · cases hr
  · next c₁ hget =>
      obtain rfl := Option.some.inj hr
      cases h.read_eq_some hget
      rfl
  · next data c₁ hget => cases h.read_eq_some hget

/-- So does **`libwrite`**. -/
theorem libwrite_eq_some (h : Absent c) {data : BYTE} {destination offset : ℤ}
    {r : Ret Unit × Caller} (hr : Libmem.libwrite c data destination offset = some r) :
    r = (.err, c) := by
  obtain ⟨u, -, hwrite⟩ := Option.bind_eq_some_iff.mp hr
  exact h.write_eq_some hwrite

end Absent

end SimOs.Libmem
