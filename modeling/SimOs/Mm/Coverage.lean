import SimOs.Mm.SysMem

/-!
# Address space that is lost

`__alloc` cuts the pages it adds into the region and the rest of the last page, but lets
the rest begin one byte past the end of the region.  Regions are half-open, so that
byte is in neither of them, and nothing ever brings it back: no later region begins
below the break.  Only a size that fills its pages leaves no rest.

## Main definitions

* `Covered`: every address below the break is in a region.
* `LosesNothing`: the calls that keep it so.
* `coverage_iff`: the address space is covered all along a run exactly if all its calls
  are such.
-/

namespace SimOs.Libmem

/-- An address is in a recorded or in a free region. -/
def InRegion (mm : Mm) (a : ℤ) : Prop :=
  (∃ rgid, IsSymbol rgid ∧ Contains a (mm.symrgtbl rgid)) ∨
    ∃ rg ∈ freeRegions mm, Contains a rg

/-- Every address below the break is in a region. -/
def Covered (c : Caller) : Prop := ∀ a, 0 ≤ a → a < brk c.mm → InRegion c.mm a

/-- The calls in question: allocations of up to 2^22 bytes under an id that has no region,
for which there are frames, and releases. -/
def RegionCall.Careful (c : Caller) : RegionCall → Prop
  | .liballoc size rgid =>
      IsSymbol rgid ∧ 1 ≤ size ∧ size ≤ 2 ^ 22 ∧
        (c.mm.symrgtbl rgid).rgEnd ≤ (c.mm.symrgtbl rgid).rgStart ∧
        reqPages size ≤ (freeFrames c).length
  | .libfree rgid => IsSymbol rgid

instance (c : Caller) : (call : RegionCall) → Decidable (call.Careful c)
  | .liballoc _ _ => inferInstanceAs (Decidable (_ ∧ _))
  | .libfree rgid => inferInstanceAs (Decidable (IsSymbol rgid))

/-- All sequences of such calls of a process from `init_mm`, with cleared memory. -/
def carefulSystem : Lts Caller RegionCall where
  init c := c.mm = initMm .zeroed ∧ RamOk c.dev
  step c call := if call.Careful c then regionCall .zeroed c call else none

/-- A call that loses no address: an allocation of whole pages, or a release. -/
def RegionCall.LosesNothing : RegionCall → Prop
  | .liballoc size _ => (pagingPagesz : ℤ) ∣ size
  | .libfree _ => True

/-- The layout, and no free region reaches past the break. -/
structure Bounded (c : Caller) : Prop where
  layout : ∃ vma rgs fs, Layout c vma rgs fs
  free_le : ∀ rg ∈ freeRegions c.mm, rg.rgEnd ≤ brk c.mm

/-! ## An allocation -/

/-- A free list below `vmastart` meets nothing from there on. -/
theorem validateLoop_below {vmastart vmaend : ℤ} {rgs : List VmRg}
    (h : ∀ rg ∈ rgs, rg.rgEnd ≤ CInt.uint 64 vmastart) :
    validateLoop vmastart vmaend (Chain.ofList rgs) = some (.ok ()) := by
  induction rgs with
  | nil => rfl
  | cons rg rgs ih =>
      rw [Chain.ofList_cons, validateLoop, if_pos (Or.inr (h rg List.mem_cons_self))]
      exact ih fun rg' hrg' => h rg' (List.mem_cons_of_mem rg hrg')

/-- The new pages meet no free region. -/
theorem Bounded.not_refused {c : Caller} (h : Bounded c) (incSz : ℤ) : ¬ RefusedAtBrk c incSz := by
  obtain ⟨vma, rgs, fs, hl⟩ := h.layout
  have hnonneg := hl.brk_nonneg
  have hroom := hl.room
  have hmax := hl.maxsz_lt
  simp only [pagingPagesz] at hroom
  have hbrk : CInt.uint 64 (CInt.sint 32 vma.sbrk) = vma.sbrk := by
    rw [CInt.sint_eq (by omega) (by omega), CInt.uint_eq hnonneg (by omega)]
  have hfree : ∀ rg ∈ rgs, rg.rgEnd ≤ CInt.uint 64 (CInt.sint 32 vma.sbrk) := by
    intro rg hrg
    have hle := h.free_le rg (by rwa [hl.freeRegions_eq])
    rwa [hl.brk_eq, ← hbrk] at hle
  rw [RefusedAtBrk, hl.brk_eq, validateOverlapVmArea, hl.area.getVmaByNum]
  simp only [hl.area.get?, Option.bind_some, hl.free_eq, validateLoop_below hfree]
  simp

/-- The addresses of a region placed at the break, of the rest of its last page, and of the
new break. -/
theorem Layout.placed_at {c : Caller} {vma : VmArea} {rgs : List VmRg} {fs : List ℤ}
    (h : Layout c vma rgs fs) {size : ℤ} (hsize : 0 ≤ size) (hle : size ≤ 2 ^ 31 - 256)
    (hframes : reqPages size ≤ (freeFrames c).length) :
    placedRg vma size = ⟨vma.sbrk, vma.sbrk + size⟩ ∧
      restRg vma size = ⟨vma.sbrk + size + 1, vma.sbrk + (size + 255) / 256 * 256⟩ ∧
      (placedArea vma size).sbrk = vma.sbrk + (size + 255) / 256 * 256 := by
  have hroom := h.room
  have hmax := h.maxsz_lt
  have hdvd := h.brk_dvd
  rw [reqPages_eq hsize hle, freeFrames, h.frames_eq, Chain.toList_ofList] at hframes
  simp only [pagingPagesz] at hroom hdvd
  exact placed_eq h.brk_nonneg hsize hle (by omega)

/-- What a careful `liballoc` leaves: the region is recorded, and the rest of its last
page is free, if it is more than one byte. -/
structure Placed (c c' : Caller) (vma : VmArea) (rgid size : ℤ) : Prop where
  symrgtbl : c'.mm.symrgtbl =
    Function.update c.mm.symrgtbl rgid ⟨vma.sbrk, vma.sbrk + size⟩
  brk_eq : brk c'.mm = vma.sbrk + (size + 255) / 256 * 256
  free : freeRegions c'.mm = freeRegions c.mm ∨ freeRegions c'.mm =
    ⟨vma.sbrk + size + 1, vma.sbrk + (size + 255) / 256 * 256⟩ :: freeRegions c.mm

section Placed

variable {c c' : Caller} {vma : VmArea} {rgs : List VmRg} {fs : List ℤ} {rgid size : ℤ}

/-- The free regions end at or below the new break. -/
theorem Placed.free_le (h : Placed c c' vma rgid size) (hsize : 0 ≤ size)
    (hfree : ∀ rg ∈ freeRegions c.mm, rg.rgEnd ≤ vma.sbrk) :
    ∀ rg ∈ freeRegions c'.mm, rg.rgEnd ≤ brk c'.mm := by
  have hold : ∀ rg ∈ freeRegions c.mm, rg.rgEnd ≤ vma.sbrk + (size + 255) / 256 * 256 := by
    intro rg hrg
    have hle := hfree rg hrg
    omega
  intro rg hrg
  rw [h.brk_eq]
  rcases h.free with hsame | hmore
  · rw [hsame] at hrg
    exact hold rg hrg
  · rw [hmore] at hrg
    rcases List.mem_cons.mp hrg with rfl | hrg
    · exact le_rfl
    · exact hold rg hrg

/-- The byte past a region that ends within a page is lost. -/
theorem Placed.not_covered (h : Placed c c' vma rgid size) (hl : Layout c vma rgs fs)
    (hpos : 1 ≤ size) (hpart : ¬ 256 ∣ size) : ¬ Covered c' := by
  intro hcov
  have hnonneg := hl.brk_nonneg
  -- No older region reaches past the old break.
  have hpast : ∀ rgid', IsSymbol rgid' → ¬ Contains (vma.sbrk + size) (c.mm.symrgtbl rgid') :=
    fun rgid' hid' ha => holders_ne_zero_of_recorded hid' ha (hl.inside _ (Or.inr (by omega)))
  have hpast' : ∀ rg ∈ freeRegions c.mm, ¬ Contains (vma.sbrk + size) rg :=
    fun rg hrg ha => holders_ne_zero_of_free hrg ha (hl.inside _ (Or.inr (by omega)))
  rcases hcov (vma.sbrk + size) (by omega) (by rw [h.brk_eq]; omega) with
    ⟨rgid', hid', ha⟩ | ⟨rg, hrg, ha⟩
  · rw [h.symrgtbl] at ha
    rcases eq_or_ne rgid' rgid with rfl | hne
    · rw [Function.update_self] at ha
      exact lt_irrefl _ ha.2
    · rw [Function.update_of_ne hne] at ha
      exact hpast rgid' hid' ha
  · rcases h.free with hsame | hmore
    · rw [hsame] at hrg
      exact hpast' rg hrg ha
    · rw [hmore] at hrg
      rcases List.mem_cons.mp hrg with rfl | hrg
      · have hle := ha.1
        simp only at hle
        omega
      · exact hpast' rg hrg ha

/-- A region of whole pages, under an id that had none, covers all that the break moves
over. -/
theorem Placed.covered (h : Placed c c' vma rgid size) (hl : Layout c vma rgs fs)
    (hcov : Covered c) (hid : IsSymbol rgid)
    (hempty : (c.mm.symrgtbl rgid).rgEnd ≤ (c.mm.symrgtbl rgid).rgStart) (hwhole : 256 ∣ size) :
    Covered c' := by
  intro a h0 hlt
  rw [h.brk_eq] at hlt
  rcases lt_or_ge a vma.sbrk with hbelow | habove
  · rcases hcov a h0 (by rwa [hl.brk_eq]) with ⟨rgid', hid', ha⟩ | ⟨rg, hrg, ha⟩
    · left
      -- The overwritten record was empty.
      have hne : rgid' ≠ rgid := by
        rintro rfl
        have hstart := ha.1
        have hend := ha.2
        omega
      refine ⟨rgid', hid', ?_⟩
      rw [h.symrgtbl, Function.update_of_ne hne]
      exact ha
    · right
      refine ⟨rg, ?_, ha⟩
      rcases h.free with hsame | hmore
      · rwa [hsame]
      · rw [hmore]
        exact List.mem_cons_of_mem _ hrg
  · left
    refine ⟨rgid, hid, ?_⟩
    rw [h.symrgtbl, Function.update_self]
    exact ⟨habove, by simp only; omega⟩

end Placed

/-- A region that is placed at the break keeps the free regions below it. -/
theorem Bounded.placed {c : Caller} (h : Bounded c) {vma : VmArea} {rgs : List VmRg}
    {fs : List ℤ} (hl : Layout c vma rgs fs) {size rgid : ℤ} {mram : Memphy} (hid : IsSymbol rgid)
    (hsize : 0 ≤ size) (hle : size ≤ 2 ^ 31 - 256)
    (hmram : allocPagesRange .zeroed (c.dev .mram) (reqPages size) .null =
      some (.ok .null, mram)) {c' : Caller}
    (hc' : c' = ⟨{ c.mm with
        mmap := .node (placedArea vma size) .null
        symrgtbl := Function.update c.mm.symrgtbl rgid (placedRg vma size) },
      Function.update c.dev .mram mram⟩) :
    Bounded c' ∧ Placed c c' vma rgid size := by
  have hframes : reqPages size ≤ (freeFrames c).length := by
    have hlen := (allocPagesRange_ok hl.frames_eq hmram).1
    rw [freeFrames, hl.frames_eq, Chain.toList_ofList]
    omega
  obtain ⟨hplaced, hrest, hbrk⟩ := hl.placed_at hsize hle hframes
  obtain ⟨rgs', fs', hl'⟩ := hl.placed hid hsize hle hmram
  rw [← hc'] at hl'
  have hlist : rgs' = if RestEnlisted vma size then restRg vma size :: rgs else rgs := by
    have hchain := hl'.free_eq.symm.trans (withRest_free size hl.free_eq)
    have := congrArg Chain.toList hchain
    rwa [Chain.toList_ofList, Chain.toList_ofList] at this
  have hnew : Placed c c' vma rgid size :=
    { symrgtbl := by rw [hc', ← hplaced]
      brk_eq := by rw [hl'.brk_eq, hbrk]
      free := by
        rw [hl'.freeRegions_eq, hl.freeRegions_eq, hlist, ← hrest]
        split
        · exact Or.inr rfl
        · exact Or.inl rfl }
  have hfree : ∀ rg ∈ freeRegions c.mm, rg.rgEnd ≤ vma.sbrk := by
    intro rg hrg
    rw [← hl.brk_eq]
    exact h.free_le rg hrg
  exact ⟨⟨⟨_, rgs', fs', hl'⟩, hnew.free_le hsize hfree⟩, hnew⟩

/-- **A `liballoc` for which there are frames** places its region at the break. -/
theorem Bounded.liballoc {c : Caller} (h : Bounded c) {size rgid : ℤ} (hid : IsSymbol rgid)
    (hpos : 1 ≤ size) (hle : size ≤ 2 ^ 31 - 256) (hframes : reqPages size ≤ (freeFrames c).length)
    {r : Ret (Option ℤ) × Caller} (hr : liballoc .zeroed c size rgid = some r) :
    Bounded r.2 ∧ r.1 ≠ .err ∧ ∃ vma rgs fs, Layout c vma rgs fs ∧ Placed c r.2 vma rgid size := by
  obtain ⟨vma, rgs, fs, hl⟩ := h.layout
  obtain ⟨-, -, hbrk⟩ := hl.placed_at (by omega) hle hframes
  rw [liballoc_eq hid (by omega) (by omega)] at hr
  have hmmap : r.2.mm.mmap = .node (placedArea vma size) .null := by
    rcases alloc_area hl.area hr with ⟨href, -⟩ | ⟨-, harea⟩
    · exact absurd href (h.not_refused _)
    · rw [harea, if_pos hframes]
  have hmoved : (placedArea vma size).sbrk ≠ vma.sbrk := by omega
  have hcase := alloc_cases hl.area hr
  cases hcase with
  | overlap =>
      have hsame := hl.area.mmap.symm.trans hmmap
      obtain ⟨heq, -⟩ := Chain.node.inj hsame
      exact absurd (congrArg VmArea.sbrk heq).symm hmoved
  | noFrames mram _ =>
      obtain ⟨heq, -⟩ := Chain.node.inj hmmap
      exact absurd (congrArg VmArea.sbrk heq).symm hmoved
  | placed mram hmram _ =>
      obtain ⟨hbounded, hnew⟩ := h.placed hl hid (by omega) hle hmram rfl
      exact ⟨hbounded, by simp, vma, rgs, fs, hl, hnew⟩

/-- **Which allocations** lose nothing: exactly those of whole pages. -/
theorem covered_liballoc {c c' : Caller} (h : Bounded c) (hcov : Covered c) {size rgid : ℤ}
    (hcareful : (RegionCall.liballoc size rgid).Careful c)
    (hcall : regionCall .zeroed c (.liballoc size rgid) = some c') :
    Bounded c' ∧ (Covered c' ↔ (pagingPagesz : ℤ) ∣ size) := by
  obtain ⟨hid, hpos, hle, hempty, hframes⟩ := hcareful
  obtain ⟨r, hr, rfl⟩ := Option.map_eq_some_iff.mp hcall
  obtain ⟨hbounded, -, vma, rgs, fs, hl, hnew⟩ := h.liballoc hid hpos (by omega) hframes hr
  refine ⟨hbounded, ?_⟩
  constructor
  · intro hcov'
    by_contra hpart
    exact hnew.not_covered hl hpos hpart hcov'
  · intro hwhole
    exact hnew.covered hl hcov hid hempty hwhole

/-! ## A release -/

/-- **`libfree`** loses nothing. -/
theorem covered_libfree {c c' : Caller} (h : Bounded c) {rgid : ℤ} (hid : IsSymbol rgid)
    (hcall : regionCall .zeroed c (.libfree rgid) = some c') :
    Bounded c' ∧ (Covered c → Covered c') := by
  obtain ⟨vma, rgs, fs, hl⟩ := h.layout
  obtain ⟨r, hr, rfl⟩ := Option.map_eq_some_iff.mp hcall
  obtain ⟨r', hr', hcase⟩ := free_cases rgid hl.area
  rw [Libmem.libfree, hid.sint, hr'] at hr
  obtain rfl := Option.some.inj hr
  cases hcase with
  | empty _ => exact ⟨h, id⟩
  | moved _ hlt =>
      have hl' := hl.moved hid
      have hbrk : brk (c.setMm { c.mm with
          mmap := .node (withFree vma (c.mm.symrgtbl rgid)) .null
          symrgtbl := Function.update c.mm.symrgtbl rgid ⟨0, 0⟩ }).mm = brk c.mm := by
        rw [hl'.brk_eq, hl.brk_eq]
        rfl
      have hfree := hl'.freeRegions_eq
      rw [← hl.freeRegions_eq] at hfree
      constructor
      · refine ⟨⟨_, _, _, hl'⟩, ?_⟩
        intro rg hrg
        rw [hfree] at hrg
        rw [hbrk]
        rcases List.mem_cons.mp hrg with rfl | hrg
        · exact (hl.within hlt fun a ha => holders_ne_zero_of_recorded hid ha).2
        · exact h.free_le rg hrg
      · intro hcov a h0 ha
        rw [hbrk] at ha
        rcases hcov a h0 ha with ⟨rgid', hid', hin⟩ | ⟨rg, hrg, hin⟩
        · rcases eq_or_ne rgid' rgid with rfl | hne
          · exact Or.inr ⟨_, by rw [hfree]; exact List.mem_cons_self, hin⟩
          · refine Or.inl ⟨rgid', hid', ?_⟩
            simp only [Caller.mm_setMm, Function.update_of_ne hne]
            exact hin
        · exact Or.inr ⟨rg, by rw [hfree]; exact List.mem_cons_of_mem _ hrg, hin⟩

/-! ## Runs -/

/-- **Which calls** lose nothing. -/
theorem covered_step {c c' : Caller} {call : RegionCall} (h : Bounded c) (hcov : Covered c)
    (hstep : carefulSystem.step c call = some c') :
    Bounded c' ∧ (Covered c' ↔ call.LosesNothing) := by
  simp only [carefulSystem] at hstep
  split at hstep
  · next hcareful =>
      cases call with
      | liballoc size rgid => exact covered_liballoc h hcov hcareful hstep
      | libfree rgid =>
          obtain ⟨h', hkeep⟩ := covered_libfree h hcareful hstep
          exact ⟨h', iff_of_true (hkeep hcov) trivial⟩
  · cases hstep

theorem bounded_initMm {c : Caller} (h : carefulSystem.init c) : Bounded c ∧ Covered c := by
  obtain ⟨hmm, hram⟩ := h
  have hbrk : brk c.mm = 0 := by
    rw [hmm]
    rfl
  refine ⟨⟨layout_initMm hmm hram, ?_⟩, ?_⟩
  · intro rg hrg
    have hlist : freeRegions (initMm .zeroed) = [⟨0, 0⟩] := by decide
    rw [hmm, hlist] at hrg
    obtain rfl := List.mem_singleton.mp hrg
    rw [hbrk]
  · intro a h0 hlt
    rw [hbrk] at hlt
    omega

/-- **When no address space is lost**: all along a run exactly if every allocation in it is
of whole pages. -/
theorem coverage_iff {c₀ c : Caller} {calls : List RegionCall} (h₀ : carefulSystem.init c₀)
    (h : carefulSystem.run c₀ calls = some c) :
    (∀ u ∈ carefulSystem.states c₀ calls, ∀ a, 0 ≤ a → a < brk u.mm →
      (∃ rgid, IsSymbol rgid ∧ Contains a (u.mm.symrgtbl rgid)) ∨
        ∃ rg ∈ freeRegions u.mm, Contains a rg) ↔
      ∀ call ∈ calls, call.LosesNothing := by
  rw [← carefulSystem.forall_trace_label h]
  exact carefulSystem.states_iff (J := Bounded) (P := Covered)
    (C := fun _ call => call.LosesNothing)
    (fun _ _ _ hb hcov hstep => covered_step hb hcov hstep) h (bounded_initMm h₀).1
    (bounded_initMm h₀).2

theorem coverage_iff_small :
    ∃ c, carefulSystem.run smallProc [.liballoc 256 0, .libfree 0, .liballoc 10 0] = some c ∧
      ((∀ u ∈ carefulSystem.states smallProc [.liballoc 256 0, .libfree 0, .liballoc 10 0],
        ∀ a, 0 ≤ a → a < brk u.mm →
          (∃ rgid, IsSymbol rgid ∧ Contains a (u.mm.symrgtbl rgid)) ∨
            ∃ rg ∈ freeRegions u.mm, Contains a rg) ↔
        ∀ call ∈ ([.liballoc 256 0, .libfree 0, .liballoc 10 0] : List RegionCall),
          call.LosesNothing) := by
  obtain ⟨c, hc⟩ := Option.isSome_iff_exists.mp (show (carefulSystem.run smallProc
    [.liballoc 256 0, .libfree 0, .liballoc 10 0]).isSome by decide +kernel)
  exact ⟨c, hc, coverage_iff ⟨rfl, ramOk_smallProc⟩ hc⟩

/-- After an allocation of 300 bytes, address 300 is in no region. -/
theorem coverage_fails_300 :
    ∃ c, carefulSystem.Reachable c ∧ 300 < brk c.mm ∧
      ¬ ((∃ rgid, IsSymbol rgid ∧ Contains 300 (c.mm.symrgtbl rgid)) ∨
        ∃ rg ∈ freeRegions c.mm, Contains 300 rg) := by
  have hrun : (carefulSystem.run smallProc [.liballoc 300 0]).any (fun c : Caller => decide
      (300 < brk c.mm ∧ (∀ rgid ∈ symbols, ¬ Contains 300 (c.mm.symrgtbl rgid)) ∧
        ∀ rg ∈ freeRegions c.mm, ¬ Contains 300 rg)) = true := by decide +kernel
  obtain ⟨c, hc, hcase⟩ := (Option.any_eq_true _ _).mp hrun
  obtain ⟨hbrk, hrecorded, hfree⟩ := of_decide_eq_true hcase
  refine ⟨c, ⟨smallProc, _, ⟨rfl, ramOk_smallProc⟩, hc⟩, hbrk, ?_⟩
  rintro (⟨rgid, hid, ha⟩ | ⟨rg, hrg, ha⟩)
  · exact hrecorded rgid (mem_symbols.mpr hid) ha
  · exact hfree rg hrg ha

end SimOs.Libmem
