import SimOs.Mm.SysMem

/-!
# Sizes that are not sizes

A size is an `uint32_t` in the instruction and an `int` in `__alloc` and `inc_vma_limit`.
So a size from 2^31 on is negative there, and the rounding of a size just below 2^31
overflows.  Then the increment is negative, too: frames are not asked for, the request
succeeds, and the break moves back over regions that are in use.

The end of the area moves with every request that passes the overlap test, also when
there are no frames, so it has no bound but that of its type.

## Main definitions

* `SizeSafe`: what a request does to break, end and record if its arithmetic is right.
* `SizeOk`: the requests for which it is.
* `size_safe_iff`: all requests of a run are safe exactly if all are such.
-/

namespace SimOs.Libmem

/-- All sequences of allocations of a process from `init_mm`, with any sizes of 32 bits. -/
def allocSystem (fresh : Fresh) : Lts Caller (ℤ × ℤ) where
  init c := c.mm = initMm fresh ∧ RamOk c.dev
  step c call :=
    if 0 ≤ call.1 ∧ call.1 < 2 ^ 32 ∧ IsSymbol call.2 then
      (liballoc fresh c call.1 call.2).map Prod.snd
    else none

/-- The increment is enough for the size, break and end do not move back, and a record that
is changed has the size. -/
structure SizeSafe (fresh : Fresh) (c : Caller) (size regIndex : ℤ) : Prop where
  increment : size ≤ pagingPageAlignsz (CInt.sint 32 size)
  forward : ∀ r, liballoc fresh c size regIndex = some r →
    brk c.mm ≤ brk r.2.mm ∧ vmEnd c.mm ≤ vmEnd r.2.mm
  recorded : ∀ r, liballoc fresh c size regIndex = some r →
    r.2.mm.symrgtbl regIndex ≠ c.mm.symrgtbl regIndex →
      (r.2.mm.symrgtbl regIndex).rgEnd - (r.2.mm.symrgtbl regIndex).rgStart = size

/-- The size can be rounded up to pages in an `int`, and either the request is refused or
the end of the area stays in the range of an `unsigned long`. -/
def SizeOk (c : Caller) (size : ℤ) : Prop :=
  size ≤ 2 ^ 31 - 256 ∧
    (RefusedAtBrk c (pagingPageAlignsz size) ∨ vmEnd c.mm + pagingPageAlignsz size < 2 ^ 64)

/-! ## The increment -/

/-- An increment is a number of pages in an `int`. -/
theorem pagingPageAlignsz_le (sz : ℤ) : pagingPageAlignsz sz ≤ 2 ^ 31 - 256 := by
  have hlt : pagingPageAlignsz sz < 2 ^ 31 := (CInt.sint_range 31 _).2
  have hdvd : (256 : ℤ) ∣ pagingPageAlignsz sz := by
    have hpage : (pagingPagesz : ℤ) = 256 := rfl
    rw [pagingPageAlignsz, hpage, CInt.sint, Int.bmod_def]
    split
    · omega
    · omega
  omega

/-- **Which sizes** the increment is enough for. -/
theorem le_pagingPageAlignsz_iff {size : ℤ} (h0 : 0 ≤ size) :
    size ≤ pagingPageAlignsz (CInt.sint 32 size) ↔ size ≤ 2 ^ 31 - 256 := by
  constructor
  · intro hle
    exact hle.trans (pagingPageAlignsz_le _)
  · intro hle
    rw [CInt.sint_eq (by omega) (by omega), pagingPageAlignsz_eq h0 hle]
    omega

/-! ## The break -/

/-- The pages below the break have taken frames of RAM, and the end of the area is in the
range of its type. -/
structure BreakInRam (c : Caller) (vma : VmArea) (frames : List ℤ) : Prop where
  area : Area c.mm vma
  frames_eq : (c.dev .mram).freeFpList = Chain.ofList frames
  brk_nonneg : 0 ≤ vma.sbrk
  brk_dvd : (pagingPagesz : ℤ) ∣ vma.sbrk
  room : vma.sbrk + pagingPagesz * frames.length ≤ (c.dev .mram).maxsz
  maxsz_lt : (c.dev .mram).maxsz < 2 ^ 31
  end_nonneg : 0 ≤ vma.vmEnd
  end_lt : vma.vmEnd < 2 ^ 64

namespace BreakInRam

variable {fresh : Fresh} {c : Caller} {vma : VmArea} {frames : List ℤ} {rgid size : ℤ}

/-- The address where a region is placed, and the new break. -/
theorem placed_at (h : BreakInRam c vma frames) (h0 : 0 ≤ size) (hle : size ≤ 2 ^ 31 - 256)
    (hframes : (reqPages size).toNat ≤ frames.length) :
    placedRg vma size = ⟨vma.sbrk, vma.sbrk + size⟩ ∧
      (placedArea vma size).sbrk = vma.sbrk + (size + 255) / 256 * 256 := by
  have hroom := h.room
  have hmax := h.maxsz_lt
  have hdvd := h.brk_dvd
  rw [reqPages_eq h0 hle] at hframes
  simp only [pagingPagesz] at hroom hdvd
  obtain ⟨hplaced, -, hbrk⟩ := placed_eq h.brk_nonneg h0 hle (by omega)
  exact ⟨hplaced, hbrk⟩

/-- A failed frame request leaves the break where it is. -/
theorem noFrames (h : BreakInRam c vma frames) {mram : Memphy}
    (hmram : allocPagesRange fresh (c.dev .mram) (reqPages size) .null = some (.err, mram)) :
    BreakInRam ⟨{ c.mm with mmap := .node (grown vma size) .null },
      Function.update c.dev .mram mram⟩ (grown vma size) [] := by
  obtain rfl := allocPagesRange_err h.frames_eq hmram
  have hroom := h.room
  simp only [pagingPagesz] at hroom
  exact
    { area := ⟨rfl, h.area.vmId⟩
      frames_eq := by simp
      brk_nonneg := h.brk_nonneg
      brk_dvd := h.brk_dvd
      room := by
        simp only [Function.update_self, List.length_nil, grown]
        omega
      maxsz_lt := by simpa using h.maxsz_lt
      end_nonneg := (uint_range _).1
      end_lt := (uint_range _).2 }

/-- The frames taken are the pages added. -/
theorem placed (h : BreakInRam c vma frames) (h0 : 0 ≤ size) (hle : size ≤ 2 ^ 31 - 256)
    {mram : Memphy} (hmram : allocPagesRange fresh (c.dev .mram) (reqPages size) .null =
      some (.ok .null, mram)) :
    BreakInRam ⟨{ c.mm with
        mmap := .node (placedArea vma size) .null
        symrgtbl := Function.update c.mm.symrgtbl rgid (placedRg vma size) },
      Function.update c.dev .mram mram⟩ (placedArea vma size)
      (frames.drop (reqPages size).toNat) := by
  obtain ⟨hlen, rfl⟩ := allocPagesRange_ok h.frames_eq hmram
  have hbrk := (h.placed_at h0 hle hlen).2
  have hend := (placedArea_fields vma size).2.1
  have hroom := h.room
  have hdvd := h.brk_dvd
  have hnonneg := h.brk_nonneg
  simp only [pagingPagesz] at hroom hdvd
  rw [reqPages_eq h0 hle] at hlen
  exact
    { area := h.area.placed rfl
      frames_eq := by simp
      brk_nonneg := by omega
      brk_dvd := by
        simp only [hbrk, pagingPagesz]
        omega
      room := by
        simp only [Function.update_self, List.length_drop, pagingPagesz]
        rw [hbrk, reqPages_eq h0 hle]
        omega
      maxsz_lt := by simpa using h.maxsz_lt
      end_nonneg := by
        rw [hend]
        exact (uint_range _).1
      end_lt := by
        rw [hend]
        exact (uint_range _).2 }

/-- **One allocation** keeps the break within RAM. -/
theorem alloc (h : BreakInRam c vma frames) (h0 : 0 ≤ size) (hle : size ≤ 2 ^ 31 - 256)
    {r : Ret (Option ℤ) × Caller} (hr : Libmem.alloc fresh c 0 rgid size = some r) :
    ∃ vma' frames', BreakInRam r.2 vma' frames' := by
  have hcase := alloc_cases h.area hr
  cases hcase with
  | overlap => exact ⟨vma, frames, h⟩
  | noFrames mram hmram => exact ⟨_, _, h.noFrames hmram⟩
  | placed mram hmram _ => exact ⟨_, _, h.placed h0 hle hmram⟩

/-- **What an allocation that is not refused does**: the end moves, the break does not move
back, and a record that is changed has the size. -/
theorem alloc_effect (h : BreakInRam c vma frames) (h0 : 0 ≤ size) (hle : size ≤ 2 ^ 31 - 256)
    {mm : Mm} (hmm : mm =
      if reqPages size ≤ (freeFrames c).length then
        { c.mm with
          mmap := .node (placedArea vma size) .null
          symrgtbl := Function.update c.mm.symrgtbl rgid (placedRg vma size) }
      else { c.mm with mmap := .node (grown vma size) .null }) :
    vmEnd mm = CInt.uint 64 (vmEnd c.mm + pagingPageAlignsz size) ∧ brk c.mm ≤ brk mm ∧
      (mm.symrgtbl rgid ≠ c.mm.symrgtbl rgid →
        (mm.symrgtbl rgid).rgEnd - (mm.symrgtbl rgid).rgStart = size) := by
  rw [h.area.vmEnd_eq, h.area.brk_eq]
  split at hmm
  · next hframes =>
      rw [freeFrames, h.frames_eq, Chain.toList_ofList] at hframes
      obtain ⟨hplaced, hbrk⟩ := h.placed_at h0 hle (by omega)
      obtain ⟨-, hend, -⟩ := placedArea_fields vma size
      have harea : Area mm (placedArea vma size) := h.area.placed (congrArg Mm.mmap hmm)
      rw [harea.vmEnd_eq, harea.brk_eq, hbrk, hmm]
      refine ⟨hend, by omega, ?_⟩
      intro _
      simp only [Function.update_self, hplaced]
      omega
  · have harea : Area mm (grown vma size) := ⟨congrArg Mm.mmap hmm, h.area.vmId⟩
    rw [harea.vmEnd_eq, harea.brk_eq, hmm]
    refine ⟨rfl, le_rfl, ?_⟩
    intro hchanged
    exact absurd rfl hchanged

end BreakInRam

/-! ## Runs -/

section Runs

variable {fresh : Fresh} {c c' : Caller}

/-- An unsigned sum is not below its first term exactly if it does not wrap. -/
theorem le_uint_add_iff {x d : ℤ} (h0 : 0 ≤ x) (hlt : x < 2 ^ 64) (hd : 0 ≤ d)
    (hd' : d < 2 ^ 64) : x ≤ CInt.uint 64 (x + d) ↔ x + d < 2 ^ 64 := by
  rw [CInt.uint]
  omega

/-- The call in question has one result. -/
theorem sizeSafe_iff_of_eq {size rgid : ℤ} {r : Ret (Option ℤ) × Caller}
    (hr : liballoc fresh c size rgid = some r) :
    SizeSafe fresh c size rgid ↔ size ≤ pagingPageAlignsz (CInt.sint 32 size) ∧
      (brk c.mm ≤ brk r.2.mm ∧ vmEnd c.mm ≤ vmEnd r.2.mm) ∧
      (r.2.mm.symrgtbl rgid ≠ c.mm.symrgtbl rgid →
        (r.2.mm.symrgtbl rgid).rgEnd - (r.2.mm.symrgtbl rgid).rgStart = size) := by
  constructor
  · intro h
    exact ⟨h.increment, h.forward r hr, h.recorded r hr⟩
  · intro h
    have hone : ∀ r', liballoc fresh c size rgid = some r' → r' = r :=
      fun r' hr' => Option.some.inj (hr'.symm.trans hr)
    exact ⟨h.1, fun r' hr' => hone r' hr' ▸ h.2.1, fun r' hr' => hone r' hr' ▸ h.2.2⟩

/-- A request whose size can be rounded up is safe exactly if it is refused or the end of the
area does not wrap. -/
theorem BreakInRam.sizeSafe_iff_sizeOk {vma : VmArea} {frames : List ℤ}
    (h : BreakInRam c vma frames) {size rgid : ℤ} (hid : IsSymbol rgid) (h0 : 0 ≤ size)
    (hle : size ≤ 2 ^ 31 - 256)
    {r : Ret (Option ℤ) × Caller} (hr : liballoc fresh c size rgid = some r) :
    SizeSafe fresh c size rgid ↔ SizeOk c size := by
  have hinc : size ≤ pagingPageAlignsz (CInt.sint 32 size) := (le_pagingPageAlignsz_iff h0).mpr hle
  rw [sizeSafe_iff_of_eq hr]
  rw [liballoc_eq hid h0 (by omega)] at hr
  rcases alloc_area h.area hr with ⟨href, hstay⟩ | ⟨hroom, hmm⟩
  · rw [hstay]
    exact iff_of_true ⟨hinc, ⟨le_rfl, le_rfl⟩, fun hchanged => absurd rfl hchanged⟩
      ⟨hle, Or.inl href⟩
  · obtain ⟨hend, hbrk, hrec⟩ := h.alloc_effect h0 hle hmm
    have halign := pagingPageAlignsz_eq h0 hle
    have hmoves : vmEnd c.mm ≤ vmEnd r.2.mm ↔
        vmEnd c.mm + pagingPageAlignsz size < 2 ^ 64 := by
      rw [hend, h.area.vmEnd_eq]
      exact le_uint_add_iff h.end_nonneg h.end_lt (by omega) (by omega)
    rw [SizeOk, or_iff_right hroom, ← hmoves]
    constructor
    · intro hsafe
      exact ⟨hle, hsafe.2.1.2⟩
    · intro hok
      exact ⟨hinc, ⟨hbrk, hok.2⟩, hrec⟩

/-- **Which requests** are safe, as long as the break is within RAM. -/
theorem size_safe_step (h : ∃ vma frames, BreakInRam c vma frames) {call : ℤ × ℤ}
    (hstep : (allocSystem fresh).step c call = some c') :
    (SizeSafe fresh c call.1 call.2 ↔ SizeOk c call.1) ∧
      (SizeOk c call.1 → ∃ vma frames, BreakInRam c' vma frames) := by
  obtain ⟨vma, frames, hbreak⟩ := h
  simp only [allocSystem] at hstep
  split at hstep
  · next hargs =>
      obtain ⟨h0, -, hid⟩ := hargs
      obtain ⟨r, hr, rfl⟩ := Option.map_eq_some_iff.mp hstep
      by_cases hle : call.1 ≤ 2 ^ 31 - 256
      · refine ⟨hbreak.sizeSafe_iff_sizeOk hid h0 hle hr, ?_⟩
        intro _
        rw [liballoc_eq hid h0 (by omega)] at hr
        exact hbreak.alloc h0 hle hr
      · refine ⟨iff_of_false ?_ fun hok => hle hok.1, fun hok => absurd hok.1 hle⟩
        intro hsafe
        exact hle ((le_pagingPageAlignsz_iff h0).mp hsafe.increment)
  · cases hstep

/-- The break of a process after `init_mm`. -/
theorem breakInRam_initMm (h : (allocSystem fresh).init c) :
    ∃ vma frames, BreakInRam c vma frames := by
  obtain ⟨hmm, frames, hframes, hroom, hmax⟩ := h
  exact ⟨_, frames,
    { area := ⟨by rw [hmm]; rfl, rfl⟩
      frames_eq := hframes
      brk_nonneg := le_rfl
      brk_dvd := dvd_zero _
      room := by simpa using hroom
      maxsz_lt := hmax
      end_nonneg := le_rfl
      end_lt := show (0 : ℤ) < 2 ^ 64 by decide }⟩

/-- **When size arithmetic is safe**: in all steps of a run exactly if every size in it can be
rounded up to pages in an `int`, and no request that gets past the overlap test moves the end of
the area past the range of its type. -/
theorem size_safe_iff {c₀ : Caller} {calls : List (ℤ × ℤ)} (h₀ : (allocSystem fresh).init c₀)
    (h : (allocSystem fresh).run c₀ calls = some c) :
    (∀ x ∈ (allocSystem fresh).trace Prod.mk c₀ calls, SizeSafe fresh x.1 x.2.1 x.2.2) ↔
      ∀ x ∈ (allocSystem fresh).trace Prod.mk c₀ calls, SizeOk x.1 x.2.1 :=
  (allocSystem fresh).trace_iff (fun _ _ _ hbreak hstep => size_safe_step hbreak hstep) h
    (breakInRam_initMm h₀)

end Runs

/-- An allocation that takes both frames, and one that finds none. -/
def tooManySizes : List (ℤ × ℤ) := [(300, 0), (100, 1)]

theorem init_smallProc : (allocSystem .zeroed).init smallProc :=
  ⟨rfl, ramOk_smallProc⟩

theorem size_safe_iff_small :
    ∃ c, (allocSystem .zeroed).run smallProc tooManySizes = some c ∧
      ∀ x ∈ (allocSystem .zeroed).trace Prod.mk smallProc tooManySizes,
        SizeSafe .zeroed x.1 x.2.1 x.2.2 := by
  have hrun : ((allocSystem .zeroed).run smallProc tooManySizes).isSome := by decide +kernel
  have hok : ((allocSystem .zeroed).trace Prod.mk smallProc tooManySizes).all (fun x =>
      x.2.1 ≤ 2 ^ 31 - 256 ∧ vmEnd x.1.mm + pagingPageAlignsz x.2.1 < 2 ^ 64) = true := by
    decide +kernel
  obtain ⟨c, hc⟩ := Option.isSome_iff_exists.mp hrun
  refine ⟨c, hc, (size_safe_iff init_smallProc hc).mpr ?_⟩
  intro x hx
  have hx' := of_decide_eq_true (List.all_eq_true.mp hok x hx)
  exact ⟨hx'.1, Or.inr hx'.2⟩

/-- **A request of 2^32 - 512 bytes** after one of 512 moves the break back into the region of
the first, and its record ends before it begins. -/
theorem break_moves_back :
    ∃ c c', (allocSystem .zeroed).Reachable c ∧
      (allocSystem .zeroed).step c (4294966784, 1) = some c' ∧
      brk c.mm = 512 ∧ brk c'.mm = 256 ∧ vmEnd c.mm = 512 ∧ vmEnd c'.mm = 256 ∧
      c.mm.symrgtbl 0 = ⟨0, 512⟩ ∧ c'.mm.symrgtbl 1 = ⟨512, 0⟩ ∧
      ¬ SizeSafe .zeroed c 4294966784 1 := by
  have hrun : ((allocSystem .zeroed).run smallProc [(512, 0)]).any (fun c =>
      (brk c.mm = 512 ∧ vmEnd c.mm = 512 ∧ c.mm.symrgtbl 0 = ⟨0, 512⟩) ∧
        ((allocSystem .zeroed).step c (4294966784, 1)).any fun c' =>
          brk c'.mm = 256 ∧ vmEnd c'.mm = 256 ∧ c'.mm.symrgtbl 1 = ⟨512, 0⟩) = true := by
    decide +kernel
  obtain ⟨c, hc, hcase⟩ := (Option.any_eq_true _ _).mp hrun
  obtain ⟨⟨hbrk, hend, hrec⟩, hstep⟩ := of_decide_eq_true hcase
  obtain ⟨c', hc', hcase'⟩ := (Option.any_eq_true _ _).mp hstep
  obtain ⟨hbrk', hend', hrec'⟩ := of_decide_eq_true hcase'
  refine ⟨c, c', ⟨smallProc, _, init_smallProc, hc⟩, hc', hbrk, hbrk', hend, hend', hrec, hrec',
    ?_⟩
  intro hsafe
  exact absurd hsafe.increment (by decide +kernel)

end SimOs.Libmem
