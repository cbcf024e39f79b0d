import SimOs.Mm.Demand

/-!
# The release of a process's memory

`free_pcb_memph` is to give the frames of a process back when it ends: those of its
resident pages to RAM, those of its swapped pages to the swap.  It walks the page table
and tests the present bit, but the wrong way round: an entry that is not present, which
is one never mapped, puts its frame number on the free list of RAM, and every other
entry puts its swap offset on the free list of the swap.

So RAM gets a frame for every page that was never mapped, and the swap one for every
resident page.  Both lists get what they should only if there is no page of either kind.

## Main definitions

* `freePcbMemph`: the release.
* `residentFrames`, `swapFrames`: what is to be given back.
* `ReleasedOnce`: each frame goes back to its list once.
* `released_once_iff`: exactly when it does.
-/

namespace SimOs.Libmem

/-- One trip of the loop of `free_pcb_memph`. -/
def freePage (c : Caller) (pagenum : ℕ) : Caller :=
  let pte := c.mm.pgd pagenum
  if ¬ PagePresent pte then
    let fpn := pagingFpn pte
    c.setDev .mram ((c.dev .mram).putFreefp fpn)
  else
    let fpn := pagingPteSwp pte
    c.setDev .activeMswp ((c.dev .activeMswp).putFreefp fpn)

/-- The trips of the loop for the given pages. -/
def freePages (c : Caller) (pages : List ℕ) : Caller := pages.foldl freePage c

/-- The pages of the table, in the order of the loop. -/
def allPages : List ℕ := List.range pagingMaxPgn

theorem mem_allPages {q : ℕ} : q ∈ allPages ↔ q < pagingMaxPgn := List.mem_range

/-- `free_pcb_memph`. -/
def freePcbMemph (c : Caller) : Ret Unit × Caller := (.ok (), freePages c allPages)

theorem freePcbMemph_snd (c : Caller) : (freePcbMemph c).2 = freePages c allPages := by
  rw [freePcbMemph]

/-! ## What the release does -/

section Pages

/- The loop is followed over any list of pages. -/
variable (pages : List ℕ)

/-- The pages whose entry is present. -/
def presentPages (mm : Mm) : List ℕ := pages.filter fun q => PagePresent (mm.pgd q)

/-- The pages whose entry is not. -/
def absentPages (mm : Mm) : List ℕ := pages.filter fun q => ¬ PagePresent (mm.pgd q)

/-- **The loop**: the absent pages go to RAM and the present ones to the swap. -/
theorem freePages_lists {c : Caller} {ram swp : List ℤ}
    (hram : (c.dev .mram).freeFpList = Chain.ofList ram)
    (hswp : (c.dev .activeMswp).freeFpList = Chain.ofList swp) :
    (freePages c pages).mm = c.mm ∧
    ((freePages c pages).dev .mram).freeFpList = Chain.ofList
      (((absentPages pages c.mm).map fun q => pagingFpn (c.mm.pgd q)).reverse ++ ram) ∧
    ((freePages c pages).dev .activeMswp).freeFpList = Chain.ofList
      (((presentPages pages c.mm).map fun q => pagingPteSwp (c.mm.pgd q)).reverse ++ swp) := by
  induction pages generalizing c ram swp with
  | nil => exact ⟨rfl, hram, hswp⟩
  | cons q pages ih =>
      have hne : Dev.activeMswp ≠ Dev.mram := by decide
      have hrest : freePages c (q :: pages) = freePages (freePage c q) pages := rfl
      rw [hrest]
      by_cases hq : PagePresent (c.mm.pgd q)
      · have hone : freePage c q = c.setDev .activeMswp
            ((c.dev .activeMswp).putFreefp (pagingPteSwp (c.mm.pgd q))) :=
          if_neg (not_not.mpr hq)
        have hram' : ((freePage c q).dev .mram).freeFpList = Chain.ofList ram := by
          rw [hone, Caller.dev_setDev_of_ne _ hne.symm, hram]
        have hswp' : ((freePage c q).dev .activeMswp).freeFpList =
            Chain.ofList (pagingPteSwp (c.mm.pgd q) :: swp) := by
          rw [hone, Caller.dev_setDev_self, Memphy.putFreefp, hswp]
          rfl
        have hmm : (freePage c q).mm = c.mm := by rw [hone]; rfl
        have hstep := ih hram' hswp'
        rw [hmm] at hstep
        simpa [presentPages, absentPages, hq] using hstep
      · have hone : freePage c q = c.setDev .mram
            ((c.dev .mram).putFreefp (pagingFpn (c.mm.pgd q))) := if_pos hq
        have hram' : ((freePage c q).dev .mram).freeFpList =
            Chain.ofList (pagingFpn (c.mm.pgd q) :: ram) := by
          rw [hone, Caller.dev_setDev_self, Memphy.putFreefp, hram]
          rfl
        have hswp' : ((freePage c q).dev .activeMswp).freeFpList = Chain.ofList swp := by
          rw [hone, Caller.dev_setDev_of_ne _ hne, hswp]
        have hmm : (freePage c q).mm = c.mm := by rw [hone]; rfl
        have hstep := ih hram' hswp'
        rw [hmm] at hstep
        simpa [presentPages, absentPages, hq] using hstep

/-! ## What the release is for -/

/-- The RAM frames of the resident pages. -/
def residentFrames (mm : Mm) : List ℤ :=
  (pages.filter fun q => PagePresent (mm.pgd q) ∧ ¬ PageSwapped (mm.pgd q)).map fun q =>
    pagingFpn (mm.pgd q)

/-- The swap frames of the swapped pages. -/
def swapFrames (mm : Mm) : List ℤ :=
  (pages.filter fun q => InSwap (mm.pgd q)).map fun q => pagingPteSwp (mm.pgd q)

/-- A state in which every frame has one owner: the pages have frames of their own, none of
which is in the free lists `ram` and `swp`. -/
structure Owned (c : Caller) (ram swp : List ℤ) : Prop where
  ram_eq : (c.dev .mram).freeFpList = Chain.ofList ram
  swp_eq : (c.dev .activeMswp).freeFpList = Chain.ofList swp
  ram_nodup : (residentFrames pages c.mm ++ ram).Nodup
  swp_nodup : (swapFrames pages c.mm ++ swp).Nodup

/-- The frames of the pages are added to the free lists, each once, and nothing else is. -/
def ReleasedOnce (c c' : Caller) (ram swp : List ℤ) : Prop :=
  ∃ ram' swp', (c'.dev .mram).freeFpList = Chain.ofList ram' ∧
    (c'.dev .activeMswp).freeFpList = Chain.ofList swp' ∧
    ram'.Perm (residentFrames pages c.mm ++ ram) ∧ swp'.Perm (swapFrames pages c.mm ++ swp) ∧
    ram'.Nodup ∧ swp'.Nodup

variable {pages}

/-- A present page is resident or swapped. -/
theorem length_presentPages (mm : Mm) : (presentPages pages mm).length =
    (residentFrames pages mm).length + (swapFrames pages mm).length := by
  have hsplit := List.length_eq_length_filter_add (l := presentPages pages mm)
    fun q => decide (PageSwapped (mm.pgd q))
  rw [hsplit, Nat.add_comm]
  simp only [presentPages, residentFrames, swapFrames, List.length_map, List.filter_filter]
  congr 3
  · ext q
    simp [Bool.and_comm]
  · ext q
    rw [Bool.and_comm, ← Bool.decide_and]
    rfl

variable {c : Caller} {ram swp : List ℤ}

/-- **The lists agree only if all pages are swapped**: RAM gets as many frames as there are
absent pages, the swap as many as there are present ones. -/
theorem inSwap_of_releasedOnce (howned : Owned pages c ram swp)
    (h : ReleasedOnce pages c (freePages c pages) ram swp) {q : ℕ} (hq : q ∈ pages) :
    InSwap (c.mm.pgd q) := by
  obtain ⟨ram', swp', hram', hswp', hperm, hperm', -, -⟩ := h
  obtain ⟨-, hram, hswp⟩ := freePages_lists pages howned.ram_eq howned.swp_eq
  obtain rfl := Chain.ofList_injective (hram'.symm.trans hram)
  obtain rfl := Chain.ofList_injective (hswp'.symm.trans hswp)
  have hlen := hperm.length_eq
  have hlen' := hperm'.length_eq
  simp only [List.length_append, List.length_reverse, List.length_map] at hlen hlen'
  rw [length_presentPages] at hlen'
  have hresident : residentFrames pages c.mm = [] := List.length_eq_zero_iff.mp (by omega)
  have habsent : absentPages pages c.mm = [] := by
    rw [hresident, List.length_nil] at hlen
    exact List.length_eq_zero_iff.mp (by omega)
  have hpresent : PagePresent (c.mm.pgd q) := by
    by_contra hnot
    have hmem : q ∈ absentPages pages c.mm := List.mem_filter.mpr ⟨hq, decide_eq_true hnot⟩
    rw [habsent] at hmem
    cases hmem
  constructor
  · exact hpresent
  · by_contra hnot
    have hmem : pagingFpn (c.mm.pgd q) ∈ residentFrames pages c.mm :=
      List.mem_map_of_mem (List.mem_filter.mpr ⟨hq, decide_eq_true ⟨hpresent, hnot⟩⟩)
    rw [hresident] at hmem
    cases hmem

/-- A table of swapped pages is released as it should be. -/
theorem releasedOnce_of_inSwap (howned : Owned pages c ram swp)
    (h : ∀ q ∈ pages, InSwap (c.mm.pgd q)) :
    ReleasedOnce pages c (freePages c pages) ram swp := by
  obtain ⟨-, hram, hswp⟩ := freePages_lists pages howned.ram_eq howned.swp_eq
  have hpresent : presentPages pages c.mm = pages := by
    apply List.filter_eq_self.mpr
    intro q hq
    exact decide_eq_true (h q hq).1
  have habsent : absentPages pages c.mm = [] := by
    apply List.filter_eq_nil_iff.mpr
    intro q hq
    simpa using (h q hq).1
  have hresident : residentFrames pages c.mm = [] := by
    rw [residentFrames, List.map_eq_nil_iff]
    apply List.filter_eq_nil_iff.mpr
    intro q hq
    simpa using fun _ => (h q hq).2
  have hswapped : swapFrames pages c.mm = pages.map fun q => pagingPteSwp (c.mm.pgd q) := by
    rw [swapFrames, List.filter_eq_self.mpr]
    intro q hq
    exact decide_eq_true (h q hq)
  rw [habsent, List.map_nil, List.reverse_nil] at hram
  rw [hpresent, ← hswapped] at hswp
  have hperm : ((swapFrames pages c.mm).reverse ++ swp).Perm (swapFrames pages c.mm ++ swp) :=
    (List.reverse_perm _).append_right swp
  refine ⟨_, _, hram, hswp, ?_, hperm, ?_, hperm.nodup_iff.mpr howned.swp_nodup⟩
  · rw [hresident]
  · exact (List.nodup_append.mp howned.ram_nodup).2.1

/-- No page of an empty table has a frame. -/
theorem frames_of_absent {mm : Mm} (h : ∀ q ∈ pages, ¬ PagePresent (mm.pgd q)) :
    residentFrames pages mm = [] ∧ swapFrames pages mm = [] := by
  constructor
  · rw [residentFrames, List.map_eq_nil_iff]
    apply List.filter_eq_nil_iff.mpr
    intro q hq
    simpa using fun hpresent => absurd hpresent (h q hq)
  · rw [swapFrames, List.map_eq_nil_iff]
    apply List.filter_eq_nil_iff.mpr
    intro q hq
    simpa using fun hin : InSwap (mm.pgd q) => h q hq hin.1

end Pages

/-- **Exactly when each frame goes back once**: when all pages of the table are in swap. -/
theorem released_once_iff {c : Caller} {ram swp : List ℤ} (howned : Owned allPages c ram swp) :
    ReleasedOnce allPages c (freePcbMemph c).2 ram swp ↔
      ∀ q < pagingMaxPgn, InSwap (c.mm.pgd q) := by
  rw [freePcbMemph_snd]
  constructor
  · intro h q hq
    have hmem : q ∈ allPages := mem_allPages.mpr hq
    exact inSwap_of_releasedOnce howned h hmem
  · intro h
    apply releasedOnce_of_inSwap howned
    intro q hq
    exact h q (mem_allPages.mp hq)

/-- A process with every page in a swap frame of its own. -/
def swappedOutProc : Caller where
  mm := { initMm .zeroed with pgd := fun q => pteSetSwap 0 0 q }
  dev _ := ⟨fun _ => 0, 4194304, true, 0, .null⟩

theorem inSwap_swappedOutProc (q : ℕ) : InSwap (swappedOutProc.mm.pgd q) :=
  ⟨pagePresent_pteSetSwap 0 0 q, pageSwapped_pteSetSwap 0 0 q⟩

theorem owned_swappedOutProc : Owned allPages swappedOutProc [] [] where
  ram_eq := rfl
  swp_eq := rfl
  ram_nodup := by
    have hnone : residentFrames allPages swappedOutProc.mm = [] := by
      rw [residentFrames, List.map_eq_nil_iff]
      apply List.filter_eq_nil_iff.mpr
      intro q _
      simpa using fun _ => (inSwap_swappedOutProc q).2
    rw [hnone]
    exact List.nodup_nil
  swp_nodup := by
    have hswp : ∀ q < pagingMaxPgn, pagingPteSwp (swappedOutProc.mm.pgd q) = q := by
      intro q hq
      have hmax : pagingMaxPgn = 16384 := rfl
      apply (pagingPteSwp_pteSetSwap 0 0 q).trans
      omega
    rw [List.append_nil, swapFrames]
    apply List.Nodup.map_on
    · intro q hq r hr heq
      rw [hswp q (mem_allPages.mp (List.mem_of_mem_filter hq)),
        hswp r (mem_allPages.mp (List.mem_of_mem_filter hr))] at heq
      exact Int.ofNat.inj heq
    · exact List.nodup_range.filter _

theorem released_once_iff_swappedOut :
    ReleasedOnce allPages swappedOutProc (freePcbMemph swappedOutProc).2 [] [] ↔
      ∀ q < pagingMaxPgn, InSwap (swappedOutProc.mm.pgd q) :=
  released_once_iff owned_swappedOutProc

/-- A process without pages, over one frame of RAM and one of swap, both free. -/
def idleProc : Caller where
  mm := initMm .zeroed
  dev _ := ⟨fun _ => 0, 256, true, 0, .ofList [0]⟩

/-- **Pages never mapped put frame 0 on the list of RAM**, which has it already. -/
theorem absent_pages_released :
    Owned allPages idleProc [0] [0] ∧
      ¬ ReleasedOnce allPages idleProc (freePcbMemph idleProc).2 [0] [0] := by
  have habsent : ∀ q ∈ allPages, ¬ PagePresent (idleProc.mm.pgd q) :=
    fun _ _ => not_pagePresent_zero
  obtain ⟨hresident, hswapped⟩ := frames_of_absent habsent
  have howned : Owned allPages idleProc [0] [0] := by
    refine ⟨rfl, rfl, ?_, ?_⟩
    · rw [hresident]
      exact List.nodup_singleton 0
    · rw [hswapped]
      exact List.nodup_singleton 0
  refine ⟨howned, ?_⟩
  intro h
  rw [freePcbMemph_snd] at h
  have hfirst : 0 ∈ allPages := mem_allPages.mpr (by decide)
  exact habsent 0 hfirst (inSwap_of_releasedOnce howned h hfirst).1

end SimOs.Libmem
