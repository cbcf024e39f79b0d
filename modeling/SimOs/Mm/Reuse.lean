import SimOs.Mm.SysMem

/-!
# Freed space is not reused

`get_free_vmrg_area` walks through the free list and remembers a region that fits, but
returns -1 as soon as it comes to the last region.  So every allocation is placed at the
break, and a region that was once on the free list stays there.

## Main definitions

* `Reused`: an allocation that is served from the free list.
* `free_forever`: the free list only grows.
* `never_reused`: no allocation is served from it.
-/

namespace SimOs.Libmem

/-- The request is served from the free list: the new region has its size and lies in a
free region, its addresses are no longer free, and the break, the end of the area and
the frames of RAM are as before. -/
def Reused (c : Caller) (size rgid : ℤ) : Prop :=
  ∃ addr c', liballoc .zeroed c size rgid = some (.ok addr, c') ∧
    (c'.mm.symrgtbl rgid).rgEnd - (c'.mm.symrgtbl rgid).rgStart = size ∧
    (∃ rg ∈ freeRegions c.mm, size ≤ rg.rgEnd - rg.rgStart ∧
      rg.rgStart ≤ (c'.mm.symrgtbl rgid).rgStart ∧ (c'.mm.symrgtbl rgid).rgEnd ≤ rg.rgEnd) ∧
    (∀ a, Contains a (c'.mm.symrgtbl rgid) → ∀ rg ∈ freeRegions c'.mm, ¬ Contains a rg) ∧
    brk c'.mm = brk c.mm ∧ vmEnd c'.mm = vmEnd c.mm ∧ freeFrames c' = freeFrames c

/-- The rest of the last page is put in front of the free list. -/
theorem mem_freergList_placedArea {vma : VmArea} {rg : VmRg} (size : ℤ)
    (h : rg ∈ vma.vmFreergList.toList) : rg ∈ (placedArea vma size).vmFreergList.toList := by
  rw [placedArea, withRest]
  split
  · exact List.mem_cons_of_mem (restRg vma size) h
  · exact h

/-- **`__alloc`** takes nothing off the free list. -/
theorem mem_freeRegions_alloc {c : Caller} {vma : VmArea} {rgid size : ℤ}
    {r : Ret (Option ℤ) × Caller} (ha : Area c.mm vma)
    (h : alloc .zeroed c 0 rgid size = some r) {rg : VmRg} (hrg : rg ∈ freeRegions c.mm) :
    rg ∈ freeRegions r.2.mm := by
  have hcase := alloc_cases ha h
  rw [ha.freeRegions_eq] at hrg
  cases hcase with
  | overlap => rwa [ha.freeRegions_eq]
  | noFrames mram _ =>
      have ha' : Area { c.mm with mmap := .node (grown vma size) .null } (grown vma size) :=
        ⟨rfl, ha.vmId⟩
      rwa [ha'.freeRegions_eq]
  | placed mram _ _ =>
      have ha' : Area { c.mm with
          mmap := .node (placedArea vma size) .null
          symrgtbl := Function.update c.mm.symrgtbl rgid (placedRg vma size) }
          (placedArea vma size) := ha.placed rfl
      rw [ha'.freeRegions_eq]
      exact mem_freergList_placedArea size hrg

/-- **`__free`** takes nothing off it either. -/
theorem mem_freeRegions_free {c : Caller} {vma : VmArea} {rgid : ℤ} {r : Ret Unit × Caller}
    (ha : Area c.mm vma) (h : free c 0 rgid = some r) {rg : VmRg}
    (hrg : rg ∈ freeRegions c.mm) : rg ∈ freeRegions r.2.mm := by
  obtain ⟨r', hr', hcase⟩ := free_cases rgid ha
  obtain rfl := Option.some.inj (hr'.symm.trans h)
  cases hcase with
  | empty _ => exact hrg
  | moved _ _ =>
      rw [ha.freeRegions_eq] at hrg
      exact List.mem_cons_of_mem (c.mm.symrgtbl rgid) hrg

/-- **A region once free stays free**, along every run. -/
theorem free_forever {maxSize : ℤ} {Devices : (Dev → Memphy) → Prop} {c c' : Caller}
    {calls : List RegionCall} (h : (regionSystem Devices maxSize).Reachable c)
    (hrun : (regionSystem Devices maxSize).run c calls = some c') {rg : VmRg}
    (hrg : rg ∈ freeRegions c.mm) : rg ∈ freeRegions c'.mm := by
  have hinv : Unmapped c' ∧ rg ∈ freeRegions c'.mm := by
    refine Lts.run_invariant _ (P := fun c => Unmapped c ∧ rg ∈ freeRegions c.mm) ?_ hrun
      ⟨reachable_unmapped h, hrg⟩
    intro c call c' ⟨hu, hrg⟩ hstep
    simp only [regionSystem] at hstep
    split at hstep
    · refine ⟨hu.call hstep, ?_⟩
      obtain ⟨vma, ha⟩ := hu.area
      cases call with
      | liballoc size rgid =>
          obtain ⟨r, hr, rfl⟩ := Option.map_eq_some_iff.mp hstep
          exact mem_freeRegions_alloc ha hr hrg
      | libfree rgid =>
          obtain ⟨r, hr, rfl⟩ := Option.map_eq_some_iff.mp hstep
          exact mem_freeRegions_free ha hr hrg
    · cases hstep
  exact hinv.2

/-- **No allocation is served from the free list**, whatever is on it: every free region is
still free after it. -/
theorem never_reused {c : Caller} (h : (regionSystem (fun _ => True) (2 ^ 32 - 1)).Reachable c)
    {size : ℤ} (hpos : 0 < size) (rgid : ℤ) :
    ¬ Reused c size rgid ∧
      ∀ r c', liballoc .zeroed c size rgid = some (r, c') →
        ∀ rg ∈ freeRegions c.mm, rg ∈ freeRegions c'.mm := by
  obtain ⟨vma, ha⟩ := (reachable_unmapped h).area
  have hkept : ∀ r c', liballoc .zeroed c size rgid = some (r, c') →
      ∀ rg ∈ freeRegions c.mm, rg ∈ freeRegions c'.mm :=
    fun r c' hr rg hrg => mem_freeRegions_alloc ha hr hrg
  refine ⟨?_, hkept⟩
  rintro ⟨addr, c', hr, hlength, ⟨rg, hrg, -, hstart, hend⟩, hremoved, -⟩
  -- The first address of the new region is in the old free region, which is still free.
  apply hremoved (c'.mm.symrgtbl rgid).rgStart ⟨le_rfl, by omega⟩ rg (hkept _ c' hr rg hrg)
  exact ⟨hstart, by omega⟩

/-- A process that has freed 300 bytes. -/
def freedCalls : List RegionCall := [.liballoc 300 0, .libfree 0]

theorem never_reused_freed :
    ∃ c, (regionSystem (fun _ => True) (2 ^ 32 - 1)).run smallProc freedCalls = some c ∧
      ¬ Reused c 100 1 := by
  obtain ⟨c, hc⟩ := Option.isSome_iff_exists.mp
    (show ((regionSystem (fun _ => True) (2 ^ 32 - 1)).run smallProc freedCalls).isSome by
      decide +kernel)
  exact ⟨c, hc, (never_reused ⟨smallProc, freedCalls, ⟨rfl, trivial⟩, hc⟩ (by decide) 1).1⟩

/-- **The freed 300 bytes** do not serve a request for 100. -/
theorem freed_not_reused :
    ∃ c, (regionSystem (fun _ => True) (2 ^ 32 - 1)).Reachable c ∧
      (∃ rg ∈ freeRegions c.mm, 100 ≤ rg.rgEnd - rg.rgStart) ∧ ¬ Reused c 100 1 := by
  have hrun : ((regionSystem (fun _ => True) (2 ^ 32 - 1)).run smallProc freedCalls).any
      (fun c : Caller => decide ((∃ rg ∈ freeRegions c.mm, 100 ≤ rg.rgEnd - rg.rgStart) ∧
        (liballoc .zeroed c 100 1).all fun r =>
          (r.2.mm.symrgtbl 1).rgEnd - (r.2.mm.symrgtbl 1).rgStart ≠ 100)) = true := by
    decide +kernel
  obtain ⟨c, hc, hcase⟩ := (Option.any_eq_true _ _).mp hrun
  obtain ⟨hfits, hlost⟩ := of_decide_eq_true hcase
  refine ⟨c, ⟨smallProc, freedCalls, ⟨rfl, trivial⟩, hc⟩, hfits, ?_⟩
  rintro ⟨addr, c', hr, hlength, -⟩
  rw [hr, Option.all_some] at hlost
  exact of_decide_eq_true hlost hlength

end SimOs.Libmem
