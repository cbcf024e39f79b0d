import SimOs.Mm.Unmapped

/-!
# A new process

`init_mm` sets the bounds of area 0 and its place in `mmap`.  It puts the first region in
front of whatever `vm_freerg_list` points to in the new block, and it does not touch the
entries of the page table, the symbol table or `fifo_pgn`.  So the address space of a new
process is as empty as the memory it is made of.

## Main definitions

* `EmptySpace`: no region, no record, no page.
* `withoutAlloc`: all runs of a new process that never allocate a given id.
* `StartsEmpty`: a new process has an empty space, and calls on such an id fail.
* `Blank`: the blocks hold nothing that `init_mm` would have to clear.
* `startsEmpty_iff`: exactly then a new process starts empty.
-/

namespace SimOs.Libmem

/-- The address space is empty: the free list ends and has no region of any size, nor has
the symbol table, and no page is in RAM or in swap. -/
structure EmptySpace (mm : Mm) : Prop where
  freeRegions : ∃ vma rgs, Area mm vma ∧ vma.vmFreergList = .ofList rgs ∧
    ∀ rg ∈ rgs, rg.rgEnd ≤ rg.rgStart
  symrgtbl : ∀ id, IsSymbol id → (mm.symrgtbl id).rgEnd ≤ (mm.symrgtbl id).rgStart
  pgd : ∀ pgn < pagingMaxPgn, ¬ PagePresent (mm.pgd pgn) ∧ ¬ PageSwapped (mm.pgd pgn)
  fifoPgn : mm.fifoPgn = .null

/-- The entry point that creates a region. -/
def EntryPoint.IsAlloc : EntryPoint → Prop
  | .liballoc _ => True
  | _ => False

instance (e : EntryPoint) : Decidable e.IsAlloc := by
  cases e
  · exact isTrue trivial
  all_goals exact isFalse id

/-- A call, and what `malloc` finds during it. -/
structure ProcCall where
  fresh : Fresh
  regIndex : ℤ
  entry : EntryPoint

/-- All runs of a process from `init_mm` in which `rgid` is not allocated. -/
def withoutAlloc (fresh : Fresh) (rgid : ℤ) : Lts Caller ProcCall where
  init c := c.mm = initMm fresh
  step c call :=
    if call.entry.IsAlloc ∧ CInt.sint 32 call.regIndex = rgid then none
    else (enter call.fresh c call.regIndex call.entry).map Prod.snd

/-- A new process starts with an empty address space, so that reads, writes and releases of
an id that was never allocated fail and change nothing. -/
structure StartsEmpty (fresh : Fresh) : Prop where
  space : EmptySpace (initMm fresh)
  fails : ∀ rgid, IsSymbol rgid → ∀ c, (withoutAlloc fresh rgid).Reachable c →
    ∀ e : EntryPoint, ¬ e.IsAlloc → ∀ fresh', KeepsOut fresh' c rgid e

/-- What `init_mm` does not set happens to be empty already. -/
structure Blank (fresh : Fresh) : Prop where
  vmFreergList : ∃ rgs, fresh.vmFreergList = .ofList rgs ∧ ∀ rg ∈ rgs, rg.rgEnd ≤ rg.rgStart
  symrgtbl : ∀ id, IsSymbol id → (fresh.symrgtbl id).rgEnd ≤ (fresh.symrgtbl id).rgStart
  pgd : ∀ pgn < pagingMaxPgn, ¬ PagePresent (fresh.pgd pgn) ∧ ¬ PageSwapped (fresh.pgd pgn)
  fifoPgn : fresh.fifoPgn = .null

/-! ## What `init_mm` makes -/

/-- **`init_mm`** makes an empty space exactly from blank blocks. -/
theorem emptySpace_initMm {fresh : Fresh} : EmptySpace (initMm fresh) ↔ Blank fresh := by
  constructor
  · intro h
    obtain ⟨vma, rgs, harea, hfree, hempty⟩ := h.freeRegions
    obtain ⟨rfl, -⟩ := Chain.node.inj harea.mmap
    refine ⟨?_, h.symrgtbl, h.pgd, h.fifoPgn⟩
    -- the first region is the one of `init_vm_rg`
    cases rgs with
    | nil => cases hfree
    | cons rg rgs =>
        exact ⟨rgs, (Chain.node.inj hfree).2, fun rg' hrg' =>
          hempty rg' (List.mem_cons_of_mem rg hrg')⟩
  · intro h
    obtain ⟨rgs, hfree, hempty⟩ := h.vmFreergList
    refine ⟨⟨_, initVmRg 0 0 :: rgs, ⟨rfl, rfl⟩, ?_, ?_⟩, h.symrgtbl, h.pgd, h.fifoPgn⟩
    · simp only [enlistVmRgNode, hfree, Chain.ofList_cons]
    · intro rg hrg
      cases List.mem_cons.mp hrg with
      | inl heq => rw [heq]; rfl
      | inr hmem => exact hempty rg hmem

/-! ## Calls without an allocation -/

/-- No page is present, and the record of `rgid` is empty. -/
structure Pristine (rgid : ℤ) (c : Caller) : Prop where
  absent : Absent c
  record : (c.mm.symrgtbl rgid).rgEnd ≤ (c.mm.symrgtbl rgid).rgStart

section

variable {fresh : Fresh} {c c' : Caller} {rgid : ℤ}

/-- An access that is defined fails, whatever the id. -/
theorem Absent.read_eq_some (h : Absent c) {vmaid id offset : ℤ} {r : Ret BYTE × Caller}
    (hr : read c vmaid id offset = some r) : r = (.err, c) := by
  obtain ⟨addr, haddr, hget⟩ := Option.bind_eq_some_iff.mp hr
  cases addr with
  | none => exact (Option.some.inj hget).symm
  | some addr =>
      simp only [pgGetval, h.pgGetpage] at hget
      exact (Option.some.inj hget).symm

theorem Absent.write_eq_some (h : Absent c) {vmaid id offset : ℤ} {data : BYTE}
    {r : Ret Unit × Caller} (hr : write c vmaid id offset data = some r) : r = (.err, c) := by
  obtain ⟨addr, haddr, hset⟩ := Option.bind_eq_some_iff.mp hr
  cases addr with
  | none => exact (Option.some.inj hset).symm
  | some addr =>
      simp only [pgSetval, h.pgGetpage] at hset
      exact (Option.some.inj hset).symm

/-- A call on another id leaves the record. -/
theorem KeepsPages.pristine {id : ℤ} (hk : KeepsPages id c c') (hne : id ≠ rgid)
    (h : Pristine rgid c) : Pristine rgid c' where
  absent := hk.absent h.absent
  record := by
    rw [hk.symrgtbl rgid (Ne.symm hne)]
    exact h.record

/-- **A release** of an empty record changes nothing. -/
theorem Pristine.free_eq (h : Pristine rgid c) : free c 0 rgid = some (.err, c) := by
  by_cases hid : IsSymbol rgid
  · rw [free, if_neg (not_not.mpr hid)]
    exact if_pos h.record
  · exact free_outside hid 0

/-- **One call** that does not allocate `rgid` leaves it alone. -/
theorem Pristine.step (h : Pristine rgid c) {call : ProcCall}
    (hstep : (withoutAlloc fresh rgid).step c call = some c') : Pristine rgid c' := by
  obtain ⟨vma, ha⟩ := h.absent.area
  simp only [withoutAlloc] at hstep
  split at hstep
  · cases hstep
  next hallowed =>
  obtain ⟨r, hr, rfl⟩ := Option.map_eq_some_iff.mp hstep
  obtain ⟨fresh', regIndex, e⟩ := call
  cases e with
  | liballoc size =>
      obtain ⟨r', halloc, rfl⟩ := Option.map_eq_some_iff.mp hr
      have hne : CInt.sint 32 regIndex ≠ rgid := fun heq => hallowed ⟨trivial, heq⟩
      exact (alloc_keepsPages ha halloc).pristine hne h
  | libfree =>
      by_cases heq : CInt.sint 32 regIndex = rgid
      · simp only [enter, Libmem.libfree, heq, h.free_eq] at hr
        obtain rfl := Option.some.inj hr
        exact h
      · exact (free_keepsPages ha hr).pristine heq h
  | libread offset =>
      obtain ⟨r', hread, rfl⟩ := Option.map_eq_some_iff.mp hr
      unfold Libmem.libread at hread
      split at hread
      · cases hread
      · next c₁ hget =>
          obtain rfl := Option.some.inj hread
          cases h.absent.read_eq_some hget
          exact h
      · next data c₁ hget => cases h.absent.read_eq_some hget
  | libwrite data offset =>
      obtain ⟨u, hprint, hwrite⟩ := Option.bind_eq_some_iff.mp hr
      obtain rfl := h.absent.write_eq_some hwrite
      exact h

/-- **No run** without an allocation of `rgid` touches it. -/
theorem reachable_pristine (hinit : ∀ dev, Pristine rgid ⟨initMm fresh, dev⟩)
    (h : (withoutAlloc fresh rgid).Reachable c) : Pristine rgid c := by
  refine h.invariant (P := Pristine rgid) ?_ fun c call c' hc hstep => hc.step hstep
  intro c hmm
  obtain ⟨mm, dev⟩ := c
  cases hmm
  exact hinit dev

/-- Every call on an untouched id fails and changes nothing. -/
theorem Pristine.keepsOut (h : Pristine rgid c) (hid : IsSymbol rgid) {e : EntryPoint}
    (he : ¬ e.IsAlloc) (fresh : Fresh) : KeepsOut fresh c rgid e := by
  cases e with
  | liballoc size => exact absurd trivial he
  | libfree => rw [KeepsOut, enter, Libmem.libfree, hid.sint, h.free_eq]
  | libread offset => rw [KeepsOut, enter, h.absent.libread hid]; rfl
  | libwrite data offset => rw [KeepsOut, enter, h.absent.libwrite hid]

end

/-- **A new process starts with an empty address space exactly from blank blocks**: those in
which `vm_freerg_list` leads through empty regions to `NULL`, the 30 records are empty, no
entry of the page table has bit 30 or 31, and `fifo_pgn` is `NULL`. -/
theorem startsEmpty_iff (fresh : Fresh) : StartsEmpty fresh ↔ Blank fresh := by
  constructor
  · intro h
    exact emptySpace_initMm.mp h.space
  · intro h
    refine ⟨emptySpace_initMm.mpr h, ?_⟩
    intro rgid hid c hc e he fresh'
    have hinit : ∀ dev, Pristine rgid ⟨initMm fresh, dev⟩ := fun dev =>
      ⟨⟨area_initMm, fun pgn hpgn => (h.pgd pgn hpgn).1, h.fifoPgn⟩, h.symrgtbl rgid hid⟩
    exact (reachable_pristine hinit hc).keepsOut hid he fresh'

/-- Cleared memory is blank. -/
theorem blank_zeroed : Blank .zeroed where
  vmFreergList := ⟨[], rfl, fun rg hrg => absurd hrg List.not_mem_nil⟩
  symrgtbl _ _ := le_rfl
  pgd _ _ := by
    constructor
    · exact not_pagePresent_zero
    · rw [pageSwapped_iff]
      simp [Fresh.zeroed]
  fifoPgn := rfl

/-- Blocks that were in use: a page list, a record and a table entry are left in them. -/
def recycled : Fresh where
  fpNext := .null
  vmFreergList := .null
  pgd _ := pteSetFpn 0 0
  symrgtbl _ := ⟨0, 100⟩
  fifoPgn := .node 0 .null

/-- **Recycled memory**: the first release of an id that was never allocated succeeds, and
so does a read. -/
theorem recycled_not_empty :
    ¬ StartsEmpty recycled ∧
      (libfree ⟨initMm recycled, newProc.dev⟩ 3).any (fun r => r.1 = .ok ()) ∧
      (libread ⟨initMm recycled, newProc.dev⟩ 3 0).any (fun r => r.1 = .ok 0) := by
  refine ⟨?_, by decide +kernel, by decide +kernel⟩
  intro h
  have hempty := h.space.symrgtbl 3 (by decide)
  exact absurd hempty (by decide)

end SimOs.Libmem
