import SimOs.Mm.Frames
import SimOs.Mm.Shortage

/-!
# The end of the address space

An address has 22 bits: a page number below `PAGING_MAX_PGN`, and an offset.  Nothing in
`inc_vma_limit` compares the end of the area with a limit, so the only bound on the break is
the number of frames.  On a RAM larger than the address space a region can reach past
2^22, and there the page number and the offset are those of an address at its beginning.

The page table is not touched, as `alloc_pages_range` returns no frames.

## Main definitions

* `InSpace`: the recorded regions are below 2^22, and their addresses are told apart.
* `pageIndices`: the entries of the page table that `vmap_page_range` uses.
* `RunFits`: what holds all along a run within the address space.
* `address_space_kept_iff`: every run fits exactly if the RAM is no larger than the space, and
  one run exactly if no region of it is placed across the limit.
-/

namespace SimOs.Libmem

/-- All sequences of allocations of a process from `init_mm` over a RAM that `init_memphy` has
just made, with cleared memory. -/
def spaceSystem (maxSize : ℤ) : Lts Caller (ℤ × ℤ) where
  init c := c.mm = initMm .zeroed ∧ ∃ old randomflg, old.freeFpList = .null ∧
    c.dev .mram = Memphy.initMemphy .null old maxSize randomflg
  step c call :=
    if IsSymbol call.2 ∧ 0 ≤ call.1 ∧ call.1 ≤ 2 ^ 31 - 256 then
      (liballoc .zeroed c call.1 call.2).map Prod.snd
    else none

/-- An address of a recorded region. -/
def LiveAddr (mm : Mm) (a : ℤ) : Prop := ∃ rgid, IsSymbol rgid ∧ Contains a (mm.symrgtbl rgid)

/-- The recorded regions end within the address space, and no two of their addresses have the
same page number and the same offset. -/
structure InSpace (c : Caller) : Prop where
  ends : ∀ rgid, IsSymbol rgid → (c.mm.symrgtbl rgid).rgEnd ≤ 2 ^ 22
  distinct : ∀ a b, LiveAddr c.mm a → LiveAddr c.mm b → pagingPgn a = pagingPgn b →
    pagingOffst a = pagingOffst b → a = b

/-- The indices into `pgd` that the loop of `vmap_page_range` uses. -/
def pageIndices (pgnum : ℤ) (pgn : ℕ) : ℕ → Chain ℤ → List ℕ
  | pgit, .node _ next =>
      (pgn + pgit) :: if (pgit : ℤ) = pgnum - 1 then [] else pageIndices pgnum pgn (pgit + 1) next
  | _, _ => []

/-- The call of `vmap_page_range` for an allocation of `size` bytes, which comes after that of
`alloc_pages_range`, uses existing entries only. -/
def PagesExist (c : Caller) (size : ℤ) : Prop :=
  ∀ frms mram,
    allocPagesRange .zeroed (c.dev .mram) (reqPages size) .null = some (.ok frms, mram) →
      ∀ q ∈ pageIndices (reqPages size) (pagingPgn (CInt.sint 32 (vmEnd c.mm))) 0 frms,
        q < pagingMaxPgn

/-- All states of a run are in the space, and all its calls use existing entries. -/
structure RunFits (maxSize : ℤ) (c₀ : Caller) (calls : List (ℤ × ℤ)) : Prop where
  inSpace : ∀ u ∈ (spaceSystem maxSize).states c₀ calls, InSpace u
  pages : ∀ x ∈ (spaceSystem maxSize).trace Prod.mk c₀ calls, PagesExist x.1 x.2.1

/-- If there are frames for `size` bytes, they fit between the break and 2^22. -/
def BelowLimit (c : Caller) (size : ℤ) : Prop :=
  reqPages size ≤ (freeFrames c).length → brk c.mm + size ≤ 2 ^ 22

/-! ## The page table -/

/-- The loop is defined exactly if all its indices are. -/
theorem vmapLoop_isSome_iff (addr pgnum : ℤ) (pgn : ℕ) (retRg : VmRg) (mm : Mm) (pgit : ℕ)
    (fpns : List ℤ) :
    (vmapLoop addr pgnum pgn retRg mm pgit (Chain.ofList fpns)).isSome ↔
      ∀ q ∈ pageIndices pgnum pgn pgit (Chain.ofList fpns), q < pagingMaxPgn := by
  induction fpns generalizing mm pgit with
  | nil => simp [vmapLoop, pageIndices]
  | cons fpn fpns ih =>
      rw [Chain.ofList_cons, vmapLoop, pageIndices, List.forall_mem_cons]
      by_cases hpage : pgn + pgit < pagingMaxPgn
      · rw [if_pos hpage]
        by_cases hlast : (pgit : ℤ) = pgnum - 1
        · simp [hlast, hpage]
        · simp only [if_neg hlast, ih, hpage, true_and]
      · rw [if_neg hpage]
        simp [hpage]

/-- **No entry is used**, as no frames are handed on. -/
theorem pagesExist (c : Caller) (size : ℤ) : PagesExist c size := by
  intro frms mram hmram
  obtain rfl := allocPagesLoop_ok hmram
  exact (vmapLoop_isSome_iff 0 _ _ ⟨0, 0⟩ c.mm 0 []).mp rfl

/-! ## One allocation -/

section Step

variable {maxSize : ℤ} {c c' : Caller}

/-- Below 2^22 addresses are told apart. -/
theorem Layout.inSpace_iff {vma : VmArea} {rgs : List VmRg} {fs : List ℤ}
    (h : Layout c vma rgs fs) :
    InSpace c ↔ ∀ rgid, IsSymbol rgid → (c.mm.symrgtbl rgid).rgEnd ≤ 2 ^ 22 := by
  constructor
  · intro hin
    exact hin.ends
  · intro hends
    refine ⟨hends, ?_⟩
    have hlive : ∀ x, LiveAddr c.mm x → 0 ≤ x ∧ x < 2 ^ 22 := by
      intro x hx
      obtain ⟨rgid, hid, hin⟩ := hx
      have hlt := lt_of_le_of_lt hin.1 hin.2
      have hstart := (h.within hlt fun y hy => holders_ne_zero_of_recorded hid hy).1
      exact ⟨hstart.trans hin.1, lt_of_lt_of_le hin.2 (hends rgid hid)⟩
    intro a b ha hb hpgn hoff
    exact eq_of_pgn_offst (hlive a ha).1 (hlive a ha).2 (hlive b hb).1 (hlive b hb).2 hpgn hoff

/-- Recording a region: its end decides. -/
theorem ends_update_iff {tbl : ℤ → VmRg} {rgid : ℤ} (rg : VmRg) (hid : IsSymbol rgid)
    (hends : ∀ id, IsSymbol id → (tbl id).rgEnd ≤ 2 ^ 22) :
    (∀ id, IsSymbol id → (Function.update tbl rgid rg id).rgEnd ≤ 2 ^ 22) ↔
      rg.rgEnd ≤ 2 ^ 22 := by
  constructor
  · intro h
    have hend := h rgid hid
    rwa [Function.update_self] at hend
  · intro hend id hid'
    by_cases hsame : id = rgid
    · rwa [hsame, Function.update_self]
    · rw [Function.update_of_ne hsame]
      exact hends id hid'

/-- **Which allocations** stay in the space. -/
theorem inSpace_step (h : Bounded c) (hin : InSpace c) {call : ℤ × ℤ}
    (hstep : (spaceSystem maxSize).step c call = some c') :
    Bounded c' ∧ (InSpace c' ↔ BelowLimit c call.1) := by
  obtain ⟨size, rgid⟩ := call
  simp only [spaceSystem] at hstep
  split at hstep
  · next hargs =>
      obtain ⟨hid, h0, hle⟩ := hargs
      obtain ⟨r, hr, rfl⟩ := Option.map_eq_some_iff.mp hstep
      have hbounded := h.alloc hid h0 hle hr
      refine ⟨hbounded, ?_⟩
      obtain ⟨vma, rgs, fs, hl⟩ := h.layout
      obtain ⟨vma', rgs', fs', hl'⟩ := hbounded.layout
      rw [hl'.inSpace_iff, BelowLimit, hl.brk_eq]
      rw [liballoc_eq hid h0 (by omega)] at hr
      rcases alloc_area hl.area hr with ⟨href, -⟩ | ⟨-, hmm⟩
      · exact absurd href (h.not_refused _)
      · rw [hmm]
        by_cases hframes : reqPages size ≤ (freeFrames c).length
        · simp only [if_pos hframes, (hl.placed_at h0 hle hframes).1]
          rw [ends_update_iff _ hid hin.ends]
          exact ⟨fun hbelow _ => hbelow, fun hbelow => hbelow hframes⟩
        · simp only [if_neg hframes]
          exact iff_of_true hin.ends fun hmany => absurd hmany hframes
  · cases hstep

/-- The size of RAM does not change. -/
theorem maxsz_alloc (h : Bounded c) {size rgid : ℤ} {r : Ret (Option ℤ) × Caller}
    (hr : alloc .zeroed c 0 rgid size = some r) :
    (r.2.dev .mram).maxsz = (c.dev .mram).maxsz := by
  obtain ⟨vma, rgs, fs, hl⟩ := h.layout
  have hcase := alloc_cases hl.area hr
  cases hcase with
  | overlap => rfl
  | noFrames mram hmram =>
      obtain rfl := allocPagesRange_err hl.frames_eq hmram
      simp only [Function.update_self]
  | placed mram hmram _ =>
      obtain ⟨-, rfl⟩ := allocPagesRange_ok hl.frames_eq hmram
      simp only [Function.update_self]

/-- **On a RAM no larger than the address space** every allocation stays in it: the new break
is a number of pages, and there are frames for all of them. -/
theorem belowLimit_of_small (h : Bounded c) (hmax : (c.dev .mram).maxsz < 2 ^ 22 + 256)
    {size : ℤ} (h0 : 0 ≤ size) (hle : size ≤ 2 ^ 31 - 256) : BelowLimit c size := by
  intro hframes
  obtain ⟨vma, rgs, fs, hl⟩ := h.layout
  have hroom := hl.room
  have hdvd := hl.brk_dvd
  rw [reqPages_eq h0 hle, freeFrames, hl.frames_eq, Chain.toList_ofList] at hframes
  rw [hl.brk_eq]
  simp only [pagingPagesz] at hroom hdvd
  omega

end Step

/-! ## Runs -/

section Runs

variable {maxSize : ℤ} {c₀ c : Caller} {calls : List (ℤ × ℤ)}

/-- A process over a new RAM. -/
theorem bounded_init (h0 : 0 ≤ maxSize) (hlt : maxSize < 2 ^ 31)
    (h : (spaceSystem maxSize).init c) : Bounded c ∧ InSpace c := by
  obtain ⟨hmm, old, randomflg, hold, hram⟩ := h
  have hbounded := (bounded_initMm ⟨hmm, ramOk_initMemphy hold hlt h0 hram⟩).1
  obtain ⟨vma, rgs, fs, hl⟩ := hbounded.layout
  refine ⟨hbounded, hl.inSpace_iff.mpr ?_⟩
  intro rgid _
  rw [hmm]
  exact show (0 : ℤ) ≤ 2 ^ 22 by decide

/-- **One run** fits exactly if no region in it is placed across the limit. -/
theorem run_fits_iff (h0 : 0 ≤ maxSize) (hlt : maxSize < 2 ^ 31)
    (h₀ : (spaceSystem maxSize).init c₀) (h : (spaceSystem maxSize).run c₀ calls = some c) :
    RunFits maxSize c₀ calls ↔
      ∀ x ∈ (spaceSystem maxSize).trace Prod.mk c₀ calls, BelowLimit x.1 x.2.1 := by
  obtain ⟨hbounded, hin⟩ := bounded_init h0 hlt h₀
  have hstates := (spaceSystem maxSize).states_iff (J := Bounded) (P := InSpace)
    (C := fun c call => BelowLimit c call.1)
    (fun _ _ _ hb hin hstep => inSpace_step hb hin hstep) h hbounded hin
  constructor
  · intro hfits
    exact hstates.mp hfits.inSpace
  · intro hbelow
    exact ⟨hstates.mpr hbelow, fun x _ => pagesExist x.1 x.2.1⟩

/-- **On a RAM of at most 2^14 frames** no region is placed across the limit. -/
theorem run_below_limit (hsmall : maxSize < 2 ^ 22 + 256) (h0 : 0 ≤ maxSize)
    (h₀ : (spaceSystem maxSize).init c₀) (h : (spaceSystem maxSize).run c₀ calls = some c) :
    ∀ x ∈ (spaceSystem maxSize).trace Prod.mk c₀ calls, BelowLimit x.1 x.2.1 := by
  have hmax : (c₀.dev .mram).maxsz = maxSize := by
    obtain ⟨-, old, randomflg, -, hram⟩ := h₀
    rw [hram]
    exact Memphy.maxsz_initMemphy _ _ _ _
  refine ((spaceSystem maxSize).trace_iff
    (J := fun c => Bounded c ∧ (c.dev .mram).maxsz = maxSize)
    (P := fun c call => BelowLimit c call.1) (C := fun _ _ => True) ?_ h
    ⟨(bounded_init h0 (by omega) h₀).1, hmax⟩).mpr fun _ _ => trivial
  intro c call c' hJ hstep
  obtain ⟨hbounded, hmax⟩ := hJ
  simp only [spaceSystem] at hstep
  split at hstep
  · next hargs =>
      obtain ⟨hid, hnonneg, hle⟩ := hargs
      obtain ⟨r, hr, rfl⟩ := Option.map_eq_some_iff.mp hstep
      have hbelow : BelowLimit c call.1 :=
        belowLimit_of_small hbounded (by omega) hnonneg hle
      refine ⟨iff_of_true hbelow trivial, fun _ => ⟨hbounded.alloc hid hnonneg hle hr, ?_⟩⟩
      rw [maxsz_alloc hbounded hr, hmax]
  · cases hstep

theorem RunFits.last (hfits : RunFits maxSize c₀ calls)
    (h : (spaceSystem maxSize).run c₀ calls = some c) : InSpace c :=
  hfits.inSpace c ((spaceSystem maxSize).mem_states_of_run h)

/-- A process over a RAM of `maxSize` bytes. -/
def procOn (maxSize : ℤ) : Caller where
  mm := initMm .zeroed
  dev _ := Memphy.initMemphy .null ⟨fun _ => 0, 0, false, 0, .null⟩ maxSize true

theorem init_procOn (maxSize : ℤ) : (spaceSystem maxSize).init (procOn maxSize) :=
  ⟨rfl, _, true, rfl, rfl⟩

/-- One byte more than the address space has, on a RAM with a frame more. -/
theorem places_across (hlarge : 2 ^ 22 + 256 ≤ maxSize) (hlt : maxSize < 2 ^ 31) :
    ∃ c, (spaceSystem maxSize).run (procOn maxSize) [(2 ^ 22 + 1, 0)] = some c ∧
      c.mm.symrgtbl 0 = ⟨0, 2 ^ 22 + 1⟩ := by
  have hid : IsSymbol 0 := by decide
  have hbounded := (bounded_init (by omega) hlt (init_procOn maxSize)).1
  obtain ⟨vma, rgs, fs, hl⟩ := hbounded.layout
  have hbrk : vma.sbrk = 0 := hl.brk_eq.symm
  -- There are frames for 2^14 + 1 pages.
  have hframes : reqPages (2 ^ 22 + 1) ≤ (freeFrames (procOn maxSize)).length := by
    have hlist : ((procOn maxSize).dev .mram).freeFpList =
        Chain.ofList (Memphy.allFrames (maxSize / 256).toNat) :=
      Memphy.freeFpList_initMemphy true (by omega) (fun _ => rfl) fun _ => rfl
    rw [reqPages_eq (by decide) (by decide), freeFrames, hlist, Chain.toList_ofList,
      Memphy.length_allFrames]
    omega
  have hargs : IsSymbol 0 ∧ (0 : ℤ) ≤ 2 ^ 22 + 1 ∧ (2 ^ 22 + 1 : ℤ) ≤ 2 ^ 31 - 256 := by decide
  have hadm : (RegionCall.liballoc (2 ^ 22 + 1) 0).Admissible (2 ^ 31 - 256) := hargs
  obtain ⟨c, hc⟩ := hl.call_isSome hadm
  obtain ⟨r, hr, rfl⟩ := Option.map_eq_some_iff.mp hc
  refine ⟨r.2, ?_, ?_⟩
  · have hstep : (spaceSystem maxSize).step (procOn maxSize) (2 ^ 22 + 1, 0) = some r.2 := by
      simp only [spaceSystem]
      rw [if_pos hargs]
      exact hc
    rw [(spaceSystem maxSize).run_cons_of_step hstep]
    rfl
  · rw [liballoc_eq hid (by decide) (by decide)] at hr
    rcases alloc_area hl.area hr with ⟨href, -⟩ | ⟨-, hmm⟩
    · exact absurd href (hbounded.not_refused _)
    · rw [if_pos hframes] at hmm
      rw [hmm, (hl.placed_at (by decide) (by decide) hframes).1, hbrk]
      simp only [Function.update_self, zero_add]

/-- **When allocations respect the address space**: in every run exactly if the RAM has no more
frames than the page table has entries; and in one run, on whatever RAM, exactly if every
allocation in it for which there are frames is of bytes below 2^22. -/
theorem address_space_kept_iff (h0 : 0 ≤ maxSize) (hlt : maxSize < 2 ^ 31) :
    ((∀ c₀ calls c, (spaceSystem maxSize).init c₀ →
        (spaceSystem maxSize).run c₀ calls = some c → RunFits maxSize c₀ calls) ↔
      maxSize < 2 ^ 22 + 256) ∧
    ∀ c₀ calls c, (spaceSystem maxSize).init c₀ →
      (spaceSystem maxSize).run c₀ calls = some c →
        (RunFits maxSize c₀ calls ↔
          ∀ x ∈ (spaceSystem maxSize).trace Prod.mk c₀ calls, BelowLimit x.1 x.2.1) := by
  refine ⟨?_, fun c₀ calls c h₀ h => run_fits_iff h0 hlt h₀ h⟩
  constructor
  · intro hall
    by_contra hlarge
    obtain ⟨c, hrun, hrec⟩ := places_across (by omega) hlt
    have hend := (RunFits.last (hall _ _ c (init_procOn maxSize) hrun) hrun).ends 0 (by decide)
    rw [hrec] at hend
    exact absurd hend (by decide)
  · intro hsmall c₀ calls c h₀ h
    exact (run_fits_iff h0 hlt h₀ h).mpr (run_below_limit hsmall h0 h₀ h)

theorem address_space_kept_iff_small :
    ∃ c, (spaceSystem 512).run (procOn 512) [(300, 0), (100, 1)] = some c ∧
      RunFits 512 (procOn 512) [(300, 0), (100, 1)] := by
  have hrun : ((spaceSystem 512).run (procOn 512) [(300, 0), (100, 1)]).isSome := by
    decide +kernel
  obtain ⟨c, hc⟩ := Option.isSome_iff_exists.mp hrun
  exact ⟨c, hc, (@address_space_kept_iff 512 (by decide) (by decide)).1.mpr (by decide) _ _ c
    (init_procOn 512) hc⟩

/-- **On a RAM of 4 MiB and one page** a region of one byte more than the address space is
recorded, and its last byte has the page number and the offset of its first. -/
theorem region_wraps :
    ∃ c, (spaceSystem (2 ^ 22 + 256)).init (procOn (2 ^ 22 + 256)) ∧
      (spaceSystem (2 ^ 22 + 256)).run (procOn (2 ^ 22 + 256)) [(2 ^ 22 + 1, 0)] = some c ∧
      c.mm.symrgtbl 0 = ⟨0, 2 ^ 22 + 1⟩ ∧ LiveAddr c.mm 0 ∧ LiveAddr c.mm (2 ^ 22) ∧
      pagingPgn 0 = pagingPgn (2 ^ 22) ∧ pagingOffst 0 = pagingOffst (2 ^ 22) ∧
      ¬ RunFits (2 ^ 22 + 256) (procOn (2 ^ 22 + 256)) [(2 ^ 22 + 1, 0)] := by
  obtain ⟨c, hrun, hrec⟩ := @places_across (2 ^ 22 + 256) le_rfl (by decide)
  refine ⟨c, init_procOn _, hrun, hrec, ⟨0, by decide, ?_⟩, ⟨0, by decide, ?_⟩, by decide,
    by decide, ?_⟩
  · rw [hrec]
    decide
  · rw [hrec]
    decide
  · intro hfits
    have hend := (RunFits.last hfits hrun).ends 0 (by decide)
    rw [hrec] at hend
    exact absurd hend (by decide)

end Runs

end SimOs.Libmem
