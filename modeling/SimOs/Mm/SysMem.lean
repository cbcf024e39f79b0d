import SimOs.Mm.Unmapped

/-!
# The break and the end of the area

`__alloc` places a region at `sbrk`, and `inc_vma_limit` maps its pages from `vm_end`
on.  The two are moved by different functions: `inc_vma_limit` advances `vm_end`, before
it knows whether there are frames, and `__alloc` advances `sbrk` if it succeeds.  The
system call `memmap` calls `inc_vma_limit` alone.  So they agree until an allocation
runs out of frames, or `memmap` enlarges the area.

## Main definitions

* `ScRegs`, `sysMemmap`: `struct sc_regs` and `__sys_memmap`.
* `Agree`: the break is the end of the area.
* `KeepsEnd`: the calls that keep it so.
* `placement_agrees_iff`: the two agree all along a run exactly if all its calls are such.
-/

namespace SimOs.Libmem

/-- The arguments of `memmap` in `struct sc_regs`. -/
structure ScRegs where
  a1 : BitVec 32
  a2 : BitVec 32
  a3 : BitVec 32
  deriving DecidableEq

/-- `SYSMEM_MAP_OP`. -/
def sysmemMapOp : ℤ := 1
/-- `SYSMEM_INC_OP`. -/
def sysmemIncOp : ℤ := 2
/-- `SYSMEM_SWP_OP`. -/
def sysmemSwpOp : ℤ := 3
/-- `SYSMEM_IO_READ`. -/
def sysmemIoRead : ℤ := 4
/-- `SYSMEM_IO_WRITE`. -/
def sysmemIoWrite : ℤ := 5

/-- `__mm_swap_page`. -/
def mmSwapPage (c : Caller) (vicfpn swpfpn : ℤ) : Option Caller :=
  (swapCpPage c.dev .mram vicfpn .activeMswp swpfpn).map fun dev => { c with dev := dev }

/-- `__sys_memmap`, which returns 0 whatever happens.  If the read fails, `value` is used
uninitialised. -/
def sysMemmap (fresh : Fresh) (c : Caller) (regs : ScRegs) : Option (ScRegs × Caller) :=
  let memop := regs.a1.toInt
  if memop = sysmemMapOp then some (regs, c)
  else if memop = sysmemIncOp then
    (incVmaLimit fresh c regs.a2.toInt regs.a3.toInt).map fun r => (regs, r.2)
  else if memop = sysmemSwpOp then
    (mmSwapPage c regs.a2.toInt regs.a3.toInt).map fun c => (regs, c)
  else if memop = sysmemIoRead then
    match (c.dev .mram).read regs.a2.toInt with
    | some (.ok value, mram) => some ({ regs with a3 := value.signExtend 32 }, c.setDev .mram mram)
    | _ => none
  else if memop = sysmemIoWrite then
    ((c.dev .mram).write regs.a2.toInt (regs.a3.setWidth 8)).map fun r =>
      (regs, c.setDev .mram r.2)
  else some (regs, c)

/-- The end of area 0. -/
def vmEnd (mm : Mm) : ℤ := (mm.mmap.get? 0).elim 0 VmArea.vmEnd

/-- The address where the next region is placed is the one where its pages are mapped. -/
def Agree (c : Caller) : Prop := brk c.mm = vmEnd c.mm

/-- `inc_vma_limit` refuses `incSz` more bytes at the break: they would meet a free
region. -/
def RefusedAtBrk (c : Caller) (incSz : ℤ) : Prop :=
  validateOverlapVmArea c.mm 0 (CInt.sint 32 (brk c.mm))
    (CInt.sint 32 (CInt.uint 64 (brk c.mm + incSz))) = some .err

/-- A call that moves the break or the end of the area. -/
inductive MemCall
  | region (call : RegionCall)
  | memmap (regs : ScRegs)
  deriving DecidableEq

/-- A `memmap` that enlarges area 0 by a size that is not negative. -/
def ScRegs.EnlargesZero (regs : ScRegs) : Prop :=
  regs.a1.toInt = sysmemIncOp ∧ regs.a2.toInt = 0 ∧ 0 ≤ regs.a3.toInt

instance (regs : ScRegs) : Decidable regs.EnlargesZero := inferInstanceAs (Decidable (_ ∧ _))

/-- All sequences of such calls of a process from `init_mm`. -/
def memSystem (fresh : Fresh) : Lts Caller MemCall where
  init c := c.mm = initMm fresh
  step c
    | .region call => regionCall fresh c call
    | .memmap regs =>
        if regs.EnlargesZero then (sysMemmap fresh c regs).map Prod.snd else none

/-- A call that keeps the break at the end of the area: an allocation that is refused, or
for which there are frames; any release; and a `memmap` that is refused, or asks for
nothing. -/
def KeepsEnd (c : Caller) : MemCall → Prop
  | .region (.liballoc size _) =>
      RefusedAtBrk c (pagingPageAlignsz (CInt.sint 32 size)) ∨
        reqPages (CInt.sint 32 size) ≤ (freeFrames c).length
  | .region (.libfree _) => True
  | .memmap regs => RefusedAtBrk c regs.a3.toInt ∨ regs.a3.toInt = 0

/-! ## What the calls do to the area -/

variable {fresh : Fresh} {c c' : Caller} {vma : VmArea}

theorem Area.brk_eq {mm : Mm} (h : Area mm vma) : brk mm = vma.sbrk := by
  rw [brk, h.get?, Option.elim_some]

theorem Area.vmEnd_eq {mm : Mm} (h : Area mm vma) : vmEnd mm = vma.vmEnd := by
  rw [vmEnd, h.get?, Option.elim_some]

/-- A frame request succeeds exactly if the free list has enough nodes. -/
theorem allocPagesLoop_ok_iff {frmLst : Chain ℤ} {n : ℕ} {got : List ℤ} {mram mram' : Memphy}
    {r : Ret (Chain ℤ)} (h : allocPagesLoop fresh frmLst n got mram = some (r, mram')) :
    r = .ok frmLst ↔ n ≤ mram.freeFpList.toList.length := by
  induction n generalizing got mram with
  | zero =>
      obtain ⟨rfl, -⟩ := Prod.mk.inj (Option.some.inj h)
      exact iff_of_true rfl (Nat.zero_le _)
  | succ n ih =>
      rw [allocPagesLoop, Memphy.getFreefp] at h
      cases hlist : mram.freeFpList with
      | null =>
          refine iff_of_false ?_ (by simp [Chain.toList])
          rintro rfl
          simp only [hlist] at h
          split at h
          · cases h
          · obtain ⟨_, -, heq⟩ := Option.map_eq_some_iff.mp h
            cases heq
      | wild =>
          simp only [hlist] at h
          cases h
      | node fpn next =>
          simp only [hlist] at h
          rw [ih h]
          simp

/-- The new end of the area. -/
def enlarged (vma : VmArea) (incSz : ℤ) : VmArea :=
  { vma with vmEnd := CInt.uint 64 (vma.vmEnd + incSz) }

/-- **`inc_vma_limit`** on area 0: either it refuses, or it moves the end of the area and
then asks for frames. -/
theorem incVmaLimit_cases {incSz : ℤ} {r : Ret Unit} (ha : Area c.mm vma)
    (h : incVmaLimit fresh c 0 incSz = some (r, c')) :
    (RefusedAtBrk c incSz ∧ r = .err ∧ c' = c) ∨
    ¬ RefusedAtBrk c incSz ∧ c'.mm = { c.mm with mmap := .node (enlarged vma incSz) .null } ∧
      (r = .ok () ↔
        (pagingPageAlignsz incSz).tdiv pagingPagesz ≤ (freeFrames c).length) := by
  simp only [incVmaLimit, ha.getVmaByNum, ha.get?, Option.bind_some, getVmAreaNodeAtBrk] at h
  rw [RefusedAtBrk, ha.brk_eq]
  cases hvalid : validateOverlapVmArea c.mm 0 (CInt.sint 32 vma.sbrk)
      (CInt.sint 32 (CInt.uint 64 (vma.sbrk + incSz))) with
  | none =>
      simp only [hvalid] at h
      cases h
  | some v =>
      simp only [hvalid] at h
      cases v with
      | err =>
          obtain ⟨rfl, rfl⟩ := Prod.mk.inj (Option.some.inj h)
          exact Or.inl ⟨rfl, rfl, rfl⟩
      | ok _ =>
          right
          obtain ⟨mram, rfl, hcases⟩ := vmMapRam_eq_some h
          refine ⟨by simp, ?_, ?_⟩
          · simp only [Caller.modifyVma, Caller.setMm, Caller.setDev, ha.mmap, Chain.modify,
              enlarged]
          · rw [freeFrames, ← Int.toNat_le]
            rcases hcases with ⟨rfl, hmram⟩ | ⟨rfl, hmram⟩
            · have hfew := allocPagesLoop_ok_iff hmram
              simpa [Caller.modifyVma] using hfew
            · have hmany := allocPagesLoop_ok_iff hmram
              simpa [Caller.modifyVma] using hmany

/-- **`__alloc`** on area 0: refused, placed at the break, or, for want of frames, nothing
but a larger area. -/
theorem alloc_area {rgid size : ℤ} {r : Ret (Option ℤ) × Caller} (ha : Area c.mm vma)
    (h : alloc fresh c 0 rgid size = some r) :
    (RefusedAtBrk c (pagingPageAlignsz size) ∧ r.2 = c) ∨
    ¬ RefusedAtBrk c (pagingPageAlignsz size) ∧ r.2.mm =
      if reqPages size ≤ (freeFrames c).length then
        { c.mm with
          mmap := .node (placedArea vma size) .null
          symrgtbl := Function.update c.mm.symrgtbl rgid (placedRg vma size) }
      else { c.mm with mmap := .node (grown vma size) .null } := by
  rw [alloc] at h
  split at h
  · cases h
  · next rg hrg => exact absurd hrg (getFreeVmrgArea_ne_ok _ _ _ _)
  · simp only [ha.getVmaByNum, ha.get?, Option.bind_some] at h
    split at h
    · cases h
    · next c₁ hinc =>
        obtain rfl := Option.some.inj h
        rcases incVmaLimit_cases ha hinc with ⟨href, -, rfl⟩ | ⟨hroom, hmm, hfew⟩
        · exact Or.inl ⟨href, rfl⟩
        · refine Or.inr ⟨hroom, ?_⟩
          have hnot : ¬ reqPages size ≤ (freeFrames c).length := by
            intro hle
            cases hfew.mpr hle
          rw [if_neg hnot]
          exact hmm
    · next c₁ hinc =>
        rcases incVmaLimit_cases ha hinc with ⟨-, hno, -⟩ | ⟨hroom, hmm, hmany⟩
        · cases hno
        · refine Or.inr ⟨hroom, ?_⟩
          have harea : Area c₁.mm (grown vma size) := by
            rw [hmm]
            exact ⟨rfl, ha.vmId⟩
          obtain ⟨-, rfl⟩ := allocAtBrk_eq_some harea h
          have hle : reqPages size ≤ (freeFrames c).length := hmany.mp rfl
          rw [if_pos hle]
          simp only [hmm]

/-- The process has one area, whose end is in the range of its type. -/
def EndInRange (c : Caller) : Prop :=
  ∃ vma, Area c.mm vma ∧ 0 ≤ vma.vmEnd ∧ vma.vmEnd < 2 ^ 64

/-- Adding an `int` to an `unsigned long` changes it, unless the `int` is 0. -/
theorem uint_add_eq_self {x d : ℤ} (h0 : 0 ≤ x) (hlt : x < 2 ^ 64) (hd : -2 ^ 31 ≤ d)
    (hd' : d < 2 ^ 31) : CInt.uint 64 (x + d) = x ↔ d = 0 := by
  rw [CInt.uint]
  omega

theorem uint_range (x : ℤ) : 0 ≤ CInt.uint 64 x ∧ CInt.uint 64 x < 2 ^ 64 :=
  ⟨Int.emod_nonneg x (by decide), Int.emod_lt_of_pos x (by decide)⟩

/-- **`__alloc`** keeps the break at the end of the area unless it runs out of frames. -/
theorem agree_alloc {rgid size : ℤ} {r : Ret (Option ℤ) × Caller} (hr : EndInRange c)
    (hagree : Agree c) (h : alloc fresh c 0 rgid size = some r) :
    EndInRange r.2 ∧ (Agree r.2 ↔
      RefusedAtBrk c (pagingPageAlignsz size) ∨ reqPages size ≤ (freeFrames c).length) := by
  obtain ⟨vma, ha, h0, hlt⟩ := hr
  rw [Agree, ha.brk_eq, ha.vmEnd_eq] at hagree
  rcases alloc_area ha h with ⟨href, hsame⟩ | ⟨hroom, harea⟩
  · rw [hsame, Agree, ha.brk_eq, ha.vmEnd_eq]
    exact ⟨⟨vma, ha, h0, hlt⟩, iff_of_true hagree (Or.inl href)⟩
  · split at harea
    · next hframes =>
        obtain ⟨-, hend, hbrk⟩ := placedArea_fields vma size
        have ha' : Area r.2.mm (placedArea vma size) := ha.placed (congrArg Mm.mmap harea)
        rw [Agree, ha'.brk_eq, ha'.vmEnd_eq]
        refine ⟨⟨_, ha', ?_⟩, iff_of_true ?_ (Or.inr hframes)⟩
        · rw [hend]
          exact uint_range _
        · rw [hbrk, hend, hagree]
    · next hfew =>
        have ha' : Area r.2.mm (grown vma size) := ⟨congrArg Mm.mmap harea, ha.vmId⟩
        rw [Agree, ha'.brk_eq, ha'.vmEnd_eq]
        refine ⟨⟨_, ha', uint_range _⟩, iff_of_false ?_ (not_or.mpr ⟨hroom, hfew⟩)⟩
        intro heq
        -- The end stays only if no page was asked for, and then there are frames enough.
        have hsame : CInt.uint 64 (vma.vmEnd + pagingPageAlignsz size) = vma.vmEnd :=
          heq.symm.trans hagree
        have hrange := CInt.sint_range 31
          ((CInt.sint 32 (size + pagingPagesz - 1)).tdiv pagingPagesz * pagingPagesz)
        have hzero : pagingPageAlignsz size = 0 :=
          (uint_add_eq_self h0 hlt hrange.1 hrange.2).mp hsame
        apply hfew
        rw [reqPages, hzero]
        exact le_trans (by decide) (Int.natCast_nonneg _)

/-- **`__free`** keeps break and end. -/
theorem agree_free {rgid : ℤ} {r : Ret Unit × Caller} (hr : EndInRange c)
    (h : free c 0 rgid = some r) : EndInRange r.2 ∧ (Agree r.2 ↔ Agree c) := by
  obtain ⟨vma, ha, hrange⟩ := hr
  obtain ⟨r', hr', hcase⟩ := free_cases rgid ha
  obtain rfl := Option.some.inj (hr'.symm.trans h)
  cases hcase with
  | empty _ => exact ⟨⟨vma, ha, hrange⟩, Iff.rfl⟩
  | moved _ _ =>
      have ha' : Area (c.setMm { c.mm with
          mmap := .node (withFree vma (c.mm.symrgtbl rgid)) .null
          symrgtbl := Function.update c.mm.symrgtbl rgid ⟨0, 0⟩ }).mm
          (withFree vma (c.mm.symrgtbl rgid)) := ⟨rfl, ha.vmId⟩
      refine ⟨⟨_, ha', hrange⟩, ?_⟩
      rw [Agree, Agree, ha'.brk_eq, ha'.vmEnd_eq, ha.brk_eq, ha.vmEnd_eq]
      rfl

/-- **`memmap`** with `SYSMEM_INC_OP` moves the end of the area alone. -/
theorem agree_memmap {regs : ScRegs} {r : ScRegs × Caller} (hr : EndInRange c)
    (hagree : Agree c) (hregs : regs.EnlargesZero) (h : sysMemmap fresh c regs = some r) :
    EndInRange r.2 ∧ (Agree r.2 ↔ RefusedAtBrk c regs.a3.toInt ∨ regs.a3.toInt = 0) := by
  obtain ⟨vma, ha, h0, hlt⟩ := hr
  obtain ⟨hop, hvma, hsize⟩ := hregs
  have hnomap : ¬ regs.a1.toInt = sysmemMapOp := by rw [hop]; decide
  rw [Agree, ha.brk_eq, ha.vmEnd_eq] at hagree
  simp only [sysMemmap, if_neg hnomap, if_pos hop, hvma] at h
  obtain ⟨⟨ret, c'⟩, hinc, rfl⟩ := Option.map_eq_some_iff.mp h
  rcases incVmaLimit_cases ha hinc with ⟨href, -, rfl⟩ | ⟨hroom, hmm, -⟩
  · rw [Agree, ha.brk_eq, ha.vmEnd_eq]
    exact ⟨⟨vma, ha, h0, hlt⟩, iff_of_true hagree (Or.inl href)⟩
  · have ha' : Area c'.mm (enlarged vma regs.a3.toInt) := by
      rw [hmm]
      exact ⟨rfl, ha.vmId⟩
    rw [Agree, ha'.brk_eq, ha'.vmEnd_eq, or_iff_right hroom]
    refine ⟨⟨_, ha', uint_range _⟩, ?_⟩
    have hint := BitVec.toInt_lt (x := regs.a3)
    simp only [enlarged, hagree]
    rw [eq_comm, uint_add_eq_self h0 hlt (by omega) (by simpa using hint)]

/-- **Which calls** keep the break at the end of the area. -/
theorem agree_step {call : MemCall} (hr : EndInRange c) (hagree : Agree c)
    (h : (memSystem fresh).step c call = some c') :
    EndInRange c' ∧ (Agree c' ↔ KeepsEnd c call) := by
  cases call with
  | region call =>
      cases call with
      | liballoc size rgid =>
          obtain ⟨r, hcall, rfl⟩ := Option.map_eq_some_iff.mp h
          exact agree_alloc hr hagree hcall
      | libfree rgid =>
          obtain ⟨r, hcall, rfl⟩ := Option.map_eq_some_iff.mp h
          obtain ⟨hr', hiff⟩ := agree_free hr hcall
          exact ⟨hr', iff_of_true (hiff.mpr hagree) trivial⟩
  | memmap regs =>
      simp only [memSystem] at h
      split at h
      · next hregs =>
          obtain ⟨r, hcall, rfl⟩ := Option.map_eq_some_iff.mp h
          exact agree_memmap hr hagree hregs hcall
      · cases h

/-- **When placement and mapping agree**: in all states of a run exactly if no allocation
of it that gets past the overlap test runs out of frames, and no `memmap` enlarges the
area. -/
theorem placement_agrees_iff {c₀ c : Caller} {calls : List MemCall} (h₀ : c₀.mm = initMm fresh)
    (h : (memSystem fresh).run c₀ calls = some c) :
    (∀ u ∈ (memSystem fresh).states c₀ calls, brk u.mm = vmEnd u.mm) ↔
      ∀ x ∈ (memSystem fresh).trace Prod.mk c₀ calls, KeepsEnd x.1 x.2 := by
  refine (memSystem fresh).states_iff (J := EndInRange) (P := Agree) (C := KeepsEnd)
    (fun _ _ _ hr hagree hstep => agree_step hr hagree hstep) h ?_ ?_
  · rw [EndInRange, h₀]
    exact ⟨_, ⟨rfl, rfl⟩, le_rfl, show (0 : ℤ) < 2 ^ 64 by decide⟩
  · rw [Agree, h₀]
    rfl

/-- An allocation that takes both frames, and one that finds none. -/
def tooMany : List MemCall := [.region (.liballoc 300 0), .region (.liballoc 100 1)]

theorem placement_agrees_iff_small :
    ∃ c, (memSystem .zeroed).run smallProc tooMany = some c ∧
      ((∀ u ∈ (memSystem .zeroed).states smallProc tooMany, brk u.mm = vmEnd u.mm) ↔
        ∀ x ∈ (memSystem .zeroed).trace Prod.mk smallProc tooMany, KeepsEnd x.1 x.2) := by
  obtain ⟨c, hc⟩ := Option.isSome_iff_exists.mp
    (show ((memSystem .zeroed).run smallProc tooMany).isSome by decide +kernel)
  exact ⟨c, hc, placement_agrees_iff rfl hc⟩

/-- After the failed allocation the pages of the next region would be mapped one page past
the region. -/
theorem placement_drifts :
    ∃ c, (memSystem .zeroed).Reachable c ∧ brk c.mm = 512 ∧ vmEnd c.mm = 768 := by
  have hrun : ((memSystem .zeroed).run smallProc tooMany).any (fun c =>
      brk c.mm = 512 ∧ vmEnd c.mm = 768) = true := by decide +kernel
  obtain ⟨c, hc, hcase⟩ := (Option.any_eq_true _ _).mp hrun
  exact ⟨c, ⟨smallProc, tooMany, rfl, hc⟩, of_decide_eq_true hcase⟩

end SimOs.Libmem
