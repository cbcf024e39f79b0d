import SimOs.Lib.Store
import SimOs.Mm.Calls
import SimOs.Mm.Frames
import Mathlib.Algebra.Order.BigOperators.Group.Finset
import Mathlib.Data.Finset.Image

/-!
# Regions do not overlap

`holders` counts the recorded and the free regions that contain an address.  A new
region and the rest of its last page are cut out of the pages past the break, where
there are no holders; a freed region changes its list and not its addresses.  So no
address ever has two holders, whichever frame allocations fail.

The pages below the break have taken frames from RAM, so the break stays below the
size of the device and no address computation wraps.

## Main definitions

* `holders`, `freeRegions`, `brk`: what a state says about addresses.
* `Layout`: the invariant.
* `regions_never_overlap`: what it means for every sequence of calls.
-/

namespace SimOs.Libmem

/-- The addresses of a region. -/
def Contains (a : ℤ) (rg : VmRg) : Prop := rg.rgStart ≤ a ∧ a < rg.rgEnd

instance (a : ℤ) (rg : VmRg) : Decidable (Contains a rg) := inferInstanceAs (Decidable (_ ∧ _))

/-- The ids of the symbol table. -/
def symbols : Finset ℤ := (Finset.range pagingMaxSymtblSz.toNat).image fun k : ℕ => (k : ℤ)

theorem mem_symbols {rgid : ℤ} : rgid ∈ symbols ↔ IsSymbol rgid := by
  simp only [symbols, Finset.mem_image, Finset.mem_range, IsSymbol]
  constructor
  · rintro ⟨k, hk, rfl⟩
    omega
  · rintro ⟨h0, hlt⟩
    exact ⟨rgid.toNat, by omega, Int.toNat_of_nonneg h0⟩

/-- The free regions of area 0. -/
def freeRegions (mm : Mm) : List VmRg :=
  (mm.mmap.get? 0).elim [] fun vma => vma.vmFreergList.toList

theorem Area.freeRegions_eq {mm : Mm} {vma : VmArea} (h : Area mm vma) :
    freeRegions mm = vma.vmFreergList.toList := by
  rw [freeRegions, h.get?, Option.elim_some]

/-- The break of area 0. -/
def brk (mm : Mm) : ℤ := (mm.mmap.get? 0).elim 0 VmArea.sbrk

/-- How many recorded and free regions contain an address. -/
def holders (mm : Mm) (a : ℤ) : ℕ :=
  (symbols.filter fun rgid => Contains a (mm.symrgtbl rgid)).card +
    (freeRegions mm).countP fun rg => Contains a rg

/-- A RAM whose free list ends in `NULL` and is no longer than the device has frames. -/
def RamOk (dev : Dev → Memphy) : Prop :=
  ∃ frames, (dev .mram).freeFpList = Chain.ofList frames ∧
    (pagingPagesz : ℤ) * frames.length ≤ (dev .mram).maxsz ∧ (dev .mram).maxsz < 2 ^ 31

/-- `init_memphy` makes such a device, over a cleared structure. -/
theorem ramOk_initMemphy {dev : Dev → Memphy} {old : Memphy} {maxSize : ℤ} {randomflg : Bool}
    (hold : old.freeFpList = .null) (hlt : maxSize < 2 ^ 31) (h0 : 0 ≤ maxSize)
    (h : dev .mram = Memphy.initMemphy .null old maxSize randomflg) : RamOk dev := by
  refine ⟨Memphy.allFrames (maxSize / 256).toNat, ?_, ?_, ?_⟩
  · rw [h]
    exact Memphy.freeFpList_initMemphy randomflg h0 (fun _ => hold) fun _ => rfl
  · rw [h, Memphy.maxsz_initMemphy, Memphy.length_allFrames, pagingPagesz]
    omega
  · rwa [h, Memphy.maxsz_initMemphy]

/-! ## Frames -/

/-- **A frame request that succeeds** takes the first frames of the list. -/
theorem allocPagesLoop_of_many (fresh : Fresh) (frmLst : Chain ℤ) {n : ℕ} (got : List ℤ)
    {mram : Memphy} {frames : List ℤ} (h : mram.freeFpList = Chain.ofList frames)
    (hmany : n ≤ frames.length) :
    allocPagesLoop fresh frmLst n got mram =
      some (.ok frmLst, { mram with freeFpList := Chain.ofList (frames.drop n) }) := by
  induction n generalizing got mram frames with
  | zero => rw [allocPagesLoop, List.drop_zero, ← h]
  | succ n ih =>
      rw [allocPagesLoop]
      cases frames with
      | nil => exact absurd hmany (Nat.not_succ_le_zero n)
      | cons fpn frames =>
          rw [Memphy.getFreefp_cons h]
          exact ih (got ++ [fpn]) rfl (by simpa using hmany)

/-- The loop that returns frames runs off every list. -/
theorem giveBackLoop_eq_none (nodes : Chain ℤ) (mram : Memphy) :
    giveBackLoop nodes mram = none := by
  induction nodes generalizing mram with
  | null => rfl
  | wild => rfl
  | node fpn next ih => exact ih (mram.putFreefp fpn)

/-- **A frame request that fails** has taken all frames.  It returns only if the memory of
its last node was cleared. -/
theorem allocPagesLoop_of_few (fresh : Fresh) (frmLst : Chain ℤ) {n : ℕ} (got : List ℤ)
    {mram : Memphy} {frames : List ℤ} (h : mram.freeFpList = Chain.ofList frames)
    (hfew : frames.length < n) :
    allocPagesLoop fresh frmLst n got mram =
      if fresh.fpNext = .null then some (.err, { mram with freeFpList := .null }) else none := by
  induction n generalizing got mram frames with
  | zero => exact absurd hfew (Nat.not_lt_zero _)
  | succ n ih =>
      rw [allocPagesLoop]
      cases frames with
      | nil =>
          rw [Memphy.getFreefp_nil h]
          simp only [giveBackLoop_eq_none, Option.map_none]
          have hsame : ({ mram with freeFpList := .null } : Memphy) = mram := by
            rw [← Chain.ofList_nil, ← h]
          rw [hsame]
          cases fresh.fpNext <;> simp [Chain.isNull]
      | cons fpn frames =>
          rw [Memphy.getFreefp_cons h]
          exact ih (got ++ [fpn]) rfl (by simpa using hfew)

/-- With cleared memory, a frame request takes the first frames of the list, or all of
them and fails. -/
theorem allocPagesLoop_ofList (frmLst : Chain ℤ) (n : ℕ) (got : List ℤ) {mram : Memphy}
    {frames : List ℤ} (h : mram.freeFpList = Chain.ofList frames) :
    allocPagesLoop .zeroed frmLst n got mram =
      if n ≤ frames.length then
        some (.ok frmLst, { mram with freeFpList := Chain.ofList (frames.drop n) })
      else some (.err, { mram with freeFpList := .null }) := by
  by_cases hmany : n ≤ frames.length
  · rw [if_pos hmany]
    exact allocPagesLoop_of_many .zeroed frmLst got h hmany
  · rw [if_neg hmany, allocPagesLoop_of_few .zeroed frmLst got h (by omega)]
    exact if_pos rfl

section Request

variable {fresh : Fresh} {mram mram' : Memphy} {frames : List ℤ} {reqPgnum : ℤ}
  {frmLst : Chain ℤ}

/-- A request that succeeds found the frames it asked for. -/
theorem allocPagesRange_ok (h : mram.freeFpList = Chain.ofList frames)
    (hok : allocPagesRange fresh mram reqPgnum frmLst = some (.ok frmLst, mram')) :
    reqPgnum.toNat ≤ frames.length ∧
      mram' = { mram with freeFpList := Chain.ofList (frames.drop reqPgnum.toNat) } := by
  rw [allocPagesRange] at hok
  by_cases hmany : reqPgnum.toNat ≤ frames.length
  · rw [allocPagesLoop_of_many fresh frmLst [] h hmany] at hok
    exact ⟨hmany, (Prod.mk.inj (Option.some.inj hok)).2.symm⟩
  · rw [allocPagesLoop_of_few fresh frmLst [] h (by omega)] at hok
    split at hok
    · cases hok
    · cases hok

/-- A request that fails leaves no frame. -/
theorem allocPagesRange_err (h : mram.freeFpList = Chain.ofList frames)
    (herr : allocPagesRange fresh mram reqPgnum frmLst = some (.err, mram')) :
    mram' = { mram with freeFpList := .null } := by
  rw [allocPagesRange] at herr
  by_cases hmany : reqPgnum.toNat ≤ frames.length
  · rw [allocPagesLoop_of_many fresh frmLst [] h hmany] at herr
    cases herr
  · rw [allocPagesLoop_of_few fresh frmLst [] h (by omega)] at herr
    split at herr
    · exact (Prod.mk.inj (Option.some.inj herr)).2.symm
    · cases herr

end Request

/-- Rounding a size up to whole pages. -/
theorem pagingPageAlignsz_eq {size : ℤ} (h0 : 0 ≤ size) (hle : size ≤ 2 ^ 31 - 256) :
    pagingPageAlignsz size = (size + 255) / 256 * 256 := by
  have hpage : (pagingPagesz : ℤ) = 256 := rfl
  have hround : CInt.sint 32 (size + 256 - 1) = size + 255 := by
    rw [CInt.sint_eq (by omega) (by omega)]
    omega
  rw [pagingPageAlignsz, hpage, hround, Int.tdiv_eq_ediv_of_nonneg (by omega)]
  exact CInt.sint_eq (by omega) (by omega)

theorem reqPages_eq {size : ℤ} (h0 : 0 ≤ size) (hle : size ≤ 2 ^ 31 - 256) :
    reqPages size = (size + 255) / 256 := by
  have hpage : (pagingPagesz : ℤ) = 256 := rfl
  have halign := pagingPageAlignsz_eq h0 hle
  rw [reqPages, halign, pagingPageAlignsz_eq (by omega) (by omega), hpage,
    Int.tdiv_eq_ediv_of_nonneg (by omega)]
  omega

/-! ## The invariant -/

/-- The layout of the address space: the area with its break and its free regions `rgs`,
and the free frames of RAM, of which there are few enough for the break to stay
below the size of the device. -/
structure Layout (c : Caller) (vma : VmArea) (rgs : List VmRg) (frames : List ℤ) : Prop where
  area : Area c.mm vma
  free_eq : vma.vmFreergList = Chain.ofList rgs
  frames_eq : (c.dev .mram).freeFpList = Chain.ofList frames
  brk_nonneg : 0 ≤ vma.sbrk
  brk_dvd : (pagingPagesz : ℤ) ∣ vma.sbrk
  room : vma.sbrk + pagingPagesz * frames.length ≤ (c.dev .mram).maxsz
  maxsz_lt : (c.dev .mram).maxsz < 2 ^ 31
  holders_le : ∀ a, holders c.mm a ≤ 1
  /-- Nothing is held outside `[0, sbrk)`. -/
  inside : ∀ a, a < 0 ∨ vma.sbrk ≤ a → holders c.mm a = 0

theorem Layout.freeRegions_eq {c : Caller} {vma : VmArea} {rgs : List VmRg} {frames : List ℤ}
    (h : Layout c vma rgs frames) : freeRegions c.mm = rgs := by
  rw [h.area.freeRegions_eq, h.free_eq, Chain.toList_ofList]

theorem Layout.brk_eq {c : Caller} {vma : VmArea} {rgs : List VmRg} {frames : List ℤ}
    (h : Layout c vma rgs frames) : brk c.mm = vma.sbrk := by
  rw [brk, h.area.get?, Option.elim_some]

/-- Recording a region: the new record counts, the old one no longer. -/
theorem card_recorded_update {rgid : ℤ} (hid : IsSymbol rgid) (tbl : ℤ → VmRg) (rg : VmRg)
    (a : ℤ) :
    (symbols.filter fun id => Contains a (Function.update tbl rgid rg id)).card +
        (if Contains a (tbl rgid) then 1 else 0) =
      (symbols.filter fun id => Contains a (tbl id)).card +
        if Contains a rg then 1 else 0 := by
  rw [Finset.card_filter, Finset.card_filter]
  exact sum_update_add (mem_symbols.mpr hid) (fun rg => if Contains a rg then 1 else 0) tbl rg

/-- Below the bounds of the space no address computation of `__alloc` wraps. -/
theorem placed_eq {vma : VmArea} {size : ℤ} (h0 : 0 ≤ vma.sbrk) (hsize : 0 ≤ size)
    (hle : size ≤ 2 ^ 31 - 256) (hroom : vma.sbrk + (size + 255) / 256 * 256 < 2 ^ 31 - 1) :
    placedRg vma size = ⟨vma.sbrk, vma.sbrk + size⟩ ∧
      restRg vma size = ⟨vma.sbrk + size + 1, vma.sbrk + (size + 255) / 256 * 256⟩ ∧
      (placedArea vma size).sbrk = vma.sbrk + (size + 255) / 256 * 256 := by
  have halign := pagingPageAlignsz_eq hsize hle
  have hbrk : CInt.sint 32 vma.sbrk = vma.sbrk := CInt.sint_eq (by omega) (by omega)
  have hint : ∀ x : ℤ, 0 ≤ x → x < 2 ^ 31 → CInt.uint 64 (CInt.sint 32 x) = x := by
    intro x hx0 hx
    rw [CInt.sint_eq (by omega) (by omega), CInt.uint_eq hx0 (by omega)]
  refine ⟨?_, ?_, ?_⟩
  · rw [placedRg, hbrk, CInt.uint_eq h0 (by omega), hint _ (by omega) (by omega)]
  · -- The rest begins past its end only if it is empty, at most one address late.
    rw [restRg, hbrk, halign, hint _ (by omega) (by omega), hint _ (by omega) (by omega),
      add_comm size, add_comm ((size + 255) / 256 * 256)]
  · rw [(placedArea_fields vma size).2.2, halign]
    exact CInt.uint_eq (by omega) (by omega)

/-- What contains an address after a region was placed at the break. -/
theorem holders_placed {c : Caller} {vma : VmArea} {rgs : List VmRg} {fs : List ℤ}
    (h : Layout c vma rgs fs) {mm : Mm} {rgid size : ℤ} (hid : IsSymbol rgid)
    (hsym : mm.symrgtbl = Function.update c.mm.symrgtbl rgid (placedRg vma size))
    (hfree : freeRegions mm = rgs ∨ freeRegions mm = restRg vma size :: rgs) (a : ℤ) :
    holders mm a ≤ holders c.mm a + (if Contains a (placedRg vma size) then 1 else 0) +
      if Contains a (restRg vma size) then 1 else 0 := by
  have hrec := card_recorded_update hid c.mm.symrgtbl (placedRg vma size) a
  have hcount : (freeRegions mm).countP (fun rg => Contains a rg) ≤
      rgs.countP (fun rg => Contains a rg) + if Contains a (restRg vma size) then 1 else 0 := by
    rcases hfree with hfree | hfree
    · rw [hfree]
      exact Nat.le_add_right _ _
    · rw [hfree, List.countP_cons]
      simp only [decide_eq_true_eq, le_refl]
  rw [holders, holders, h.freeRegions_eq, hsym]
  omega

/-- The free list after the rest of the last page was given to it. -/
theorem withRest_free {vma : VmArea} {rgs : List VmRg} (size : ℤ)
    (hfree : vma.vmFreergList = Chain.ofList rgs) :
    (withRest vma size).vmFreergList =
      Chain.ofList (if RestEnlisted vma size then restRg vma size :: rgs else rgs) := by
  rw [withRest]
  split
  · rw [withFree, grown, hfree, Chain.ofList_cons]
  · exact hfree

/-- A new holder lies in the new pages, and there is only one. -/
theorem holders_placed_cases {c : Caller} {vma : VmArea} {rgs : List VmRg} {fs : List ℤ}
    (h : Layout c vma rgs fs) {mm : Mm} {rgid size : ℤ} (hid : IsSymbol rgid)
    (hsize : 0 ≤ size) (hle : size ≤ 2 ^ 31 - 256)
    (hroom : vma.sbrk + (size + 255) / 256 * 256 < 2 ^ 31 - 1)
    (hsym : mm.symrgtbl = Function.update c.mm.symrgtbl rgid (placedRg vma size))
    (hfree : freeRegions mm = rgs ∨ freeRegions mm = restRg vma size :: rgs) (a : ℤ) :
    holders mm a ≤ holders c.mm a ∨
      (vma.sbrk ≤ a ∧ a < vma.sbrk + (size + 255) / 256 * 256) ∧
        holders mm a ≤ holders c.mm a + 1 := by
  obtain ⟨hplaced, hrest, -⟩ := placed_eq h.brk_nonneg hsize hle hroom
  have hnew := holders_placed h hid hsym hfree a
  rw [hplaced, hrest] at hnew
  by_cases hin : Contains a ⟨vma.sbrk, vma.sbrk + size⟩
  · have hout : ¬ Contains a ⟨vma.sbrk + size + 1, vma.sbrk + (size + 255) / 256 * 256⟩ :=
      fun h => absurd h.1 (by have := hin.2; simp only at this ⊢; omega)
    rw [if_pos hin, if_neg hout, add_zero] at hnew
    obtain ⟨hge, hlt⟩ := hin
    simp only at hge hlt
    exact Or.inr ⟨⟨hge, by omega⟩, hnew⟩
  · rw [if_neg hin, add_zero] at hnew
    by_cases hin' : Contains a ⟨vma.sbrk + size + 1, vma.sbrk + (size + 255) / 256 * 256⟩
    · rw [if_pos hin'] at hnew
      obtain ⟨hge, hlt⟩ := hin'
      simp only at hge hlt
      exact Or.inr ⟨⟨by omega, hlt⟩, hnew⟩
    · rw [if_neg hin', add_zero] at hnew
      exact Or.inl hnew

/-- **`liballoc`** keeps the layout: the new pages lie past the break. -/
theorem Layout.placed {c : Caller} {vma : VmArea} {rgs : List VmRg} {fs : List ℤ}
    (h : Layout c vma rgs fs) {rgid size : ℤ} {mram : Memphy} (hid : IsSymbol rgid)
    (hsize : 0 ≤ size) (hle : size ≤ 2 ^ 31 - 256)
    (hmram : allocPagesRange .zeroed (c.dev .mram) (reqPages size) .null =
      some (.ok .null, mram)) :
    ∃ rgs' fs', Layout ⟨{ c.mm with
        mmap := .node (placedArea vma size) .null
        symrgtbl := Function.update c.mm.symrgtbl rgid (placedRg vma size) },
      Function.update c.dev .mram mram⟩ (placedArea vma size) rgs' fs' := by
  have hpage : (pagingPagesz : ℤ) = 256 := rfl
  -- The frames taken are the pages added, and RAM has room for both.
  obtain ⟨hlen, rfl⟩ := allocPagesRange_ok h.frames_eq hmram
  rw [reqPages_eq hsize hle] at hlen
  have hroom := h.room
  have hmax := h.maxsz_lt
  have hdvd := h.brk_dvd
  have hnonneg := h.brk_nonneg
  rw [hpage] at hroom hdvd
  obtain ⟨-, -, hbrk⟩ := placed_eq hnonneg hsize hle (by omega)
  have hfree := withRest_free size h.free_eq
  let mm' : Mm := { c.mm with
    mmap := .node (placedArea vma size) .null
    symrgtbl := Function.update c.mm.symrgtbl rgid (placedRg vma size) }
  have hfree' : freeRegions mm' = rgs ∨ freeRegions mm' = restRg vma size :: rgs := by
    have heq : freeRegions mm' = (withRest vma size).vmFreergList.toList := rfl
    rw [heq, hfree, Chain.toList_ofList]
    split
    · exact Or.inr rfl
    · exact Or.inl rfl
  have hholders : ∀ a, _ := fun a => holders_placed_cases h hid hsize hle (by omega)
    (show mm'.symrgtbl = _ from rfl) hfree' a
  refine ⟨if RestEnlisted vma size then restRg vma size :: rgs else rgs,
    fs.drop (reqPages size).toNat, ?_⟩
  exact
    { area := h.area.placed rfl
      free_eq := hfree
      frames_eq := by simp only [Function.update_self]
      brk_nonneg := by omega
      brk_dvd := by rw [hbrk, hpage]; omega
      room := by
        simp only [Function.update_self, List.length_drop]
        rw [hbrk, hpage, reqPages_eq hsize hle]
        omega
      maxsz_lt := by simpa only [Function.update_self] using hmax
      holders_le := fun a => by
        change holders mm' a ≤ 1
        have hnew := hholders a
        have hle := h.holders_le a
        rcases hnew with hsame | ⟨⟨hpast, -⟩, hmore⟩
        · omega
        · have hzero := h.inside a (Or.inr hpast)
          omega
      inside := fun a hout => by
        change holders mm' a = 0
        have hnew := hholders a
        rw [hbrk] at hout
        have hzero := h.inside a (by omega)
        rcases hnew with hsame | ⟨hin, -⟩ <;> omega }

/-- A failed frame request leaves the regions alone. -/
theorem Layout.noFrames {c : Caller} {vma : VmArea} {rgs : List VmRg} {fs : List ℤ}
    (h : Layout c vma rgs fs) {size : ℤ} {mram : Memphy}
    (hmram : allocPagesRange .zeroed (c.dev .mram) (reqPages size) .null =
      some (.err, mram)) :
    Layout ⟨{ c.mm with mmap := .node (grown vma size) .null },
      Function.update c.dev .mram mram⟩ (grown vma size) rgs [] := by
  obtain rfl := allocPagesRange_err h.frames_eq hmram
  have hroom := h.room
  have hholders : ∀ a, holders { c.mm with mmap := .node (grown vma size) .null } a =
      holders c.mm a := by
    intro a
    rw [holders, holders, h.freeRegions_eq]
    congr 2
    have heq : freeRegions { c.mm with mmap := .node (grown vma size) .null } =
        vma.vmFreergList.toList := rfl
    rw [heq, h.free_eq, Chain.toList_ofList]
  exact
    { area := ⟨rfl, h.area.vmId⟩
      free_eq := h.free_eq
      frames_eq := by simp only [Function.update_self, Chain.ofList_nil]
      brk_nonneg := h.brk_nonneg
      brk_dvd := h.brk_dvd
      room := by
        have hsame : (grown vma size).sbrk = vma.sbrk := rfl
        simp only [Function.update_self, List.length_nil, hsame]
        simp only [pagingPagesz] at hroom ⊢
        omega
      maxsz_lt := by simpa only [Function.update_self] using h.maxsz_lt
      holders_le := fun a => (hholders a).symm ▸ h.holders_le a
      inside := fun a hout => (hholders a).trans (h.inside a hout) }

/-- **`libfree`** keeps the layout: the region changes its list and not its addresses. -/
theorem Layout.moved {c : Caller} {vma : VmArea} {rgs : List VmRg} {fs : List ℤ}
    (h : Layout c vma rgs fs) {rgid : ℤ} (hid : IsSymbol rgid) :
    Layout (c.setMm { c.mm with
        mmap := .node (withFree vma (c.mm.symrgtbl rgid)) .null
        symrgtbl := Function.update c.mm.symrgtbl rgid ⟨0, 0⟩ })
      (withFree vma (c.mm.symrgtbl rgid)) (c.mm.symrgtbl rgid :: rgs) fs := by
  have hholders : ∀ a, holders { c.mm with
      mmap := .node (withFree vma (c.mm.symrgtbl rgid)) .null
      symrgtbl := Function.update c.mm.symrgtbl rgid ⟨0, 0⟩ } a = holders c.mm a := by
    intro a
    have hrec := card_recorded_update hid c.mm.symrgtbl ⟨0, 0⟩ a
    have hnone : ¬ Contains a ⟨0, 0⟩ := fun h => by
      simp only [Contains] at h
      omega
    have hfree : freeRegions { c.mm with
        mmap := .node (withFree vma (c.mm.symrgtbl rgid)) .null
        symrgtbl := Function.update c.mm.symrgtbl rgid ⟨0, 0⟩ } =
        c.mm.symrgtbl rgid :: rgs := by
      have heq : (withFree vma (c.mm.symrgtbl rgid)).vmFreergList.toList =
          c.mm.symrgtbl rgid :: vma.vmFreergList.toList := rfl
      rw [h.free_eq, Chain.toList_ofList] at heq
      exact heq
    rw [if_neg hnone, add_zero] at hrec
    rw [holders, holders, h.freeRegions_eq, hfree, List.countP_cons, ← hrec]
    simp only [decide_eq_true_eq]
    omega
  exact
    { area := ⟨rfl, h.area.vmId⟩
      free_eq := by rw [withFree, h.free_eq, Chain.ofList_cons]
      frames_eq := h.frames_eq
      brk_nonneg := h.brk_nonneg
      brk_dvd := h.brk_dvd
      room := h.room
      maxsz_lt := h.maxsz_lt
      holders_le := fun a => (hholders a).symm ▸ h.holders_le a
      inside := fun a hout => (hholders a).trans (h.inside a hout) }

/-- **One call** keeps the layout. -/
theorem Layout.call {c c' : Caller} {vma : VmArea} {rgs : List VmRg} {fs : List ℤ}
    (h : Layout c vma rgs fs) {call : RegionCall} {maxSize : ℤ} (hmax : maxSize ≤ 2 ^ 31 - 256)
    (hadm : call.Admissible maxSize) (hcall : regionCall .zeroed c call = some c') :
    ∃ vma' rgs' fs', Layout c' vma' rgs' fs' := by
  cases call with
  | liballoc size rgid =>
      obtain ⟨hid, hsize, hle⟩ := hadm
      obtain ⟨r, hr, rfl⟩ := Option.map_eq_some_iff.mp hcall
      rw [liballoc_eq hid hsize (by omega)] at hr
      have hcase := alloc_cases h.area hr
      cases hcase with
      | overlap => exact ⟨vma, rgs, fs, h⟩
      | noFrames mram hmram => exact ⟨_, _, _, h.noFrames hmram⟩
      | placed mram hmram _ =>
          obtain ⟨rgs', fs', h'⟩ := h.placed hid hsize (by omega) hmram
          exact ⟨_, rgs', fs', h'⟩
  | libfree rgid =>
      obtain ⟨r, hr, rfl⟩ := Option.map_eq_some_iff.mp hcall
      obtain ⟨r', hr', hcase⟩ := free_cases rgid h.area
      rw [libfree, IsSymbol.sint hadm, hr'] at hr
      obtain rfl := Option.some.inj hr
      cases hcase with
      | empty _ => exact ⟨vma, rgs, fs, h⟩
      | moved hid _ => exact ⟨_, _, _, h.moved hid⟩

/-- The layout of a process after `init_mm`. -/
theorem layout_initMm {c : Caller} (hmm : c.mm = initMm .zeroed) (hram : RamOk c.dev) :
    ∃ vma rgs fs, Layout c vma rgs fs := by
  obtain ⟨fs, hfs, hroom, hmax⟩ := hram
  have hholders : ∀ a, holders c.mm a = 0 := by
    intro a
    have hempty : ¬ Contains a ⟨0, 0⟩ := fun h => by
      simp only [Contains] at h
      omega
    have hrec : (symbols.filter fun rgid => Contains a ((initMm .zeroed).symrgtbl rgid)) = ∅ :=
      Finset.filter_false_of_mem fun _ _ => hempty
    have hfree : (freeRegions (initMm .zeroed)).countP (fun rg => Contains a rg) = 0 := by
      have hlist : freeRegions (initMm .zeroed) = [⟨0, 0⟩] := by decide
      rw [hlist, List.countP_cons, List.countP_nil, if_neg (by simpa using hempty)]
    rw [hmm, holders, hrec, hfree, Finset.card_empty]
  exact ⟨_, [⟨0, 0⟩], fs,
    { area := ⟨by rw [hmm]; rfl, rfl⟩
      free_eq := rfl
      frames_eq := hfs
      brk_nonneg := le_rfl
      brk_dvd := dvd_zero _
      room := by simpa using hroom
      maxsz_lt := hmax
      holders_le := fun a => by rw [hholders a]; exact Nat.zero_le 1
      inside := fun a _ => hholders a }⟩

/-- **Every sequence of calls** keeps a layout. -/
theorem reachable_layout {c : Caller} {maxSize : ℤ} (hmax : maxSize ≤ 2 ^ 31 - 256)
    (h : (regionSystem RamOk maxSize).Reachable c) :
    ∃ vma rgs fs, Layout c vma rgs fs := by
  refine h.invariant (P := fun c => ∃ vma rgs fs, Layout c vma rgs fs)
    (fun c (hc : c.mm = initMm .zeroed ∧ RamOk c.dev) => layout_initMm hc.1 hc.2) ?_
  rintro c call c' ⟨vma, rgs, fs, hlayout⟩ hstep
  simp only [regionSystem] at hstep
  split at hstep
  · next hadm => exact hlayout.call hmax hadm hstep
  · cases hstep

/-! ## No call is undefined -/

theorem freeVmrgLoop_ofList (size : ℤ) {rgs : List VmRg} (hne : rgs ≠ []) (newrg : VmRg) :
    freeVmrgLoop size (Chain.ofList rgs) newrg = some .err := by
  induction rgs generalizing newrg with
  | nil => exact absurd rfl hne
  | cons rg rgs ih =>
      rw [Chain.ofList_cons, freeVmrgLoop]
      cases rgs with
      | nil => rfl
      | cons rg' rgs => exact ih (List.cons_ne_nil rg' rgs) _

theorem validateLoop_ofList (vmastart vmaend : ℤ) (rgs : List VmRg) :
    ∃ r, validateLoop vmastart vmaend (Chain.ofList rgs) = some r := by
  induction rgs with
  | nil => exact ⟨_, rfl⟩
  | cons rg rgs ih =>
      rw [Chain.ofList_cons, validateLoop]
      split
      · exact ih
      · exact ⟨_, rfl⟩

/-- `inc_vma_limit` is defined on every layout. -/
theorem Layout.incVmaLimit_isSome {c : Caller} {vma : VmArea} {rgs : List VmRg} {fs : List ℤ}
    (h : Layout c vma rgs fs) (size : ℤ) :
    ∃ r, incVmaLimit .zeroed c 0 (pagingPageAlignsz size) = some r := by
  have hvalid := fun vmastart vmaend => validateLoop_ofList vmastart vmaend rgs
  simp only [incVmaLimit, validateOverlapVmArea, h.area.getVmaByNum, h.area.get?,
    Option.bind_some, h.free_eq]
  obtain ⟨r, hr⟩ := hvalid (CInt.sint 32 (getVmAreaNodeAtBrk vma (pagingPageAlignsz size)).rgStart)
    (CInt.sint 32 (getVmAreaNodeAtBrk vma (pagingPageAlignsz size)).rgEnd)
  rw [hr]
  cases r with
  | err => exact ⟨_, rfl⟩
  | ok _ =>
      simp only [vmMapRam, Caller.modifyVma, Caller.dev_setMm, allocPagesRange,
        allocPagesLoop_ofList .null _ [] h.frames_eq]
      split
      · next hno => split at hno <;> cases hno
      · exact ⟨_, rfl⟩
      · next frms mram hmram =>
          obtain rfl : frms = .null := by split at hmram <;> cases hmram; rfl
          obtain ⟨ret, hret⟩ := vmapPageRange_null
            (c.setMm { c.mm with mmap := c.mm.mmap.modify (fun vma => { vma with
              vmEnd := CInt.uint 64 (vma.vmEnd + pagingPageAlignsz size) }) 0 }).mm
            (CInt.sint 32 vma.vmEnd)
            ((pagingPageAlignsz (pagingPageAlignsz size)).tdiv pagingPagesz)
          rw [hret]
          exact ⟨_, rfl⟩

/-- **Every call is defined** on every layout. -/
theorem Layout.call_isSome {c : Caller} {vma : VmArea} {rgs : List VmRg} {fs : List ℤ}
    (h : Layout c vma rgs fs) {call : RegionCall} {maxSize : ℤ} (hadm : call.Admissible maxSize) :
    ∃ c', regionCall .zeroed c call = some c' := by
  cases call with
  | libfree rgid =>
      obtain ⟨r, hr, -⟩ := free_cases rgid h.area
      exact ⟨r.2, by rw [regionCall, Libmem.libfree, IsSymbol.sint hadm, hr]; rfl⟩
  | liballoc size rgid =>
      have hid : IsSymbol rgid := hadm.1
      have hfree : getFreeVmrgArea c.mm 0 (CInt.sint 32 size) = some .err := by
        simp only [getFreeVmrgArea, h.area.getVmaByNum, h.area.get?, Option.bind_some, h.free_eq]
        cases rgs with
        | nil => rfl
        | cons rg rgs => exact freeVmrgLoop_ofList _ (List.cons_ne_nil rg rgs) _
      obtain ⟨⟨r, c₁⟩, hinc⟩ := h.incVmaLimit_isSome (CInt.sint 32 size)
      simp only [regionCall, liballoc, alloc, hid.sint, hfree, h.area.getVmaByNum, h.area.get?,
        Option.bind_some, hinc]
      cases r with
      | err => exact ⟨_, rfl⟩
      | ok _ =>
          rcases incVmaLimit_eq_some h.area hinc with ⟨hno, -⟩ | ⟨mram, rfl, -⟩
          · cases hno
          · have harea : Area { c.mm with mmap := .node (grown vma (CInt.sint 32 size)) .null }
                (grown vma (CInt.sint 32 size)) := ⟨rfl, h.area.vmId⟩
            have hrest := enlistRest_eq harea
            simp only [restRg] at hrest
            simp only [allocAtBrk, hrest, Option.bind_some, setSymrg, if_pos hid]
            exact ⟨_, rfl⟩

/-- A non-empty region that is counted lies below the break. -/
theorem Layout.within {c : Caller} {vma : VmArea} {rgs : List VmRg} {fs : List ℤ}
    (h : Layout c vma rgs fs) {rg : VmRg} (hlt : rg.rgStart < rg.rgEnd)
    (hheld : ∀ a, Contains a rg → holders c.mm a ≠ 0) :
    0 ≤ rg.rgStart ∧ rg.rgEnd ≤ brk c.mm := by
  rw [h.brk_eq]
  have hin : ∀ a, Contains a rg → 0 ≤ a ∧ a < vma.sbrk := by
    intro a ha
    by_contra hout
    exact hheld a ha (h.inside a (by omega))
  have hfirst := hin rg.rgStart ⟨le_rfl, hlt⟩
  have hlast := hin (rg.rgEnd - 1) ⟨by omega, by omega⟩
  omega

theorem holders_ne_zero_of_recorded {mm : Mm} {rgid a : ℤ} (hid : IsSymbol rgid)
    (ha : Contains a (mm.symrgtbl rgid)) : holders mm a ≠ 0 := by
  have hmem : rgid ∈ symbols.filter fun id => Contains a (mm.symrgtbl id) :=
    Finset.mem_filter.mpr ⟨mem_symbols.mpr hid, ha⟩
  have := Finset.card_pos.mpr ⟨rgid, hmem⟩
  rw [holders]
  omega

theorem holders_ne_zero_of_free {mm : Mm} {rg : VmRg} {a : ℤ} (hrg : rg ∈ freeRegions mm)
    (ha : Contains a rg) : holders mm a ≠ 0 := by
  have : 0 < (freeRegions mm).countP fun rg => Contains a rg :=
    List.countP_pos_iff.mpr ⟨rg, hrg, by simpa using ha⟩
  rw [holders]
  omega

/-- What `libfree` does on a state with a layout. -/
theorem Layout.libfree {c : Caller} {vma : VmArea} {rgs : List VmRg} {fs : List ℤ}
    (h : Layout c vma rgs fs) {rgid : ℤ} (hid : IsSymbol rgid) :
    ((∃ c', libfree c rgid = some (.ok (), c')) ↔
      (c.mm.symrgtbl rgid).rgStart < (c.mm.symrgtbl rgid).rgEnd) ∧
    ∀ c', libfree c rgid = some (.ok (), c') →
      freeRegions c'.mm = c.mm.symrgtbl rgid :: freeRegions c.mm ∧
      c'.mm.symrgtbl = Function.update c.mm.symrgtbl rgid ⟨0, 0⟩ ∧ brk c'.mm = brk c.mm ∧
      c'.mm.pgd = c.mm.pgd ∧ c'.dev = c.dev := by
  obtain ⟨r, hr, hcase⟩ := free_cases rgid h.area
  rw [Libmem.libfree, hid.sint, hr]
  cases hcase with
  | empty hno =>
      refine ⟨⟨?_, ?_⟩, ?_⟩
      · rintro ⟨c', h'⟩
        cases h'
      · intro hlt
        exact absurd hlt (not_lt.mpr (hno.resolve_left (not_not.mpr hid)))
      · intro c' h'
        cases h'
  | moved _ hlt =>
      refine ⟨⟨fun _ => hlt, fun _ => ⟨_, rfl⟩⟩, ?_⟩
      intro c' h'
      obtain ⟨-, rfl⟩ := Prod.mk.inj (Option.some.inj h')
      have hmoved := h.moved hid
      refine ⟨?_, rfl, ?_, rfl, rfl⟩
      · rw [hmoved.freeRegions_eq, h.freeRegions_eq]
      · rw [hmoved.brk_eq, h.brk_eq]
        rfl

/-- **Regions never overlap**: after any sequence of calls, the break is a multiple of
the page size, the non-empty regions lie below it, no address is in two of them,
`libfree` returns 0 exactly on a non-empty record, which it moves to the free list, and
no further call is undefined. -/
theorem regions_never_overlap {c : Caller} (h : (regionSystem RamOk (2 ^ 22)).Reachable c) :
    (pagingPagesz : ℤ) ∣ brk c.mm ∧
    (∀ rgid, IsSymbol rgid → (c.mm.symrgtbl rgid).rgStart < (c.mm.symrgtbl rgid).rgEnd →
      0 ≤ (c.mm.symrgtbl rgid).rgStart ∧ (c.mm.symrgtbl rgid).rgEnd ≤ brk c.mm) ∧
    (∀ rg ∈ freeRegions c.mm, rg.rgStart < rg.rgEnd → 0 ≤ rg.rgStart ∧ rg.rgEnd ≤ brk c.mm) ∧
    (∀ a, holders c.mm a ≤ 1) ∧
    (∀ rgid, IsSymbol rgid →
      ((∃ c', libfree c rgid = some (.ok (), c')) ↔
        (c.mm.symrgtbl rgid).rgStart < (c.mm.symrgtbl rgid).rgEnd) ∧
      ∀ c', libfree c rgid = some (.ok (), c') →
        freeRegions c'.mm = c.mm.symrgtbl rgid :: freeRegions c.mm ∧
        c'.mm.symrgtbl = Function.update c.mm.symrgtbl rgid ⟨0, 0⟩ ∧ brk c'.mm = brk c.mm ∧
        c'.mm.pgd = c.mm.pgd ∧ c'.dev = c.dev) ∧
    ∀ call : RegionCall, call.Admissible (2 ^ 22) →
      ∃ c', regionCall .zeroed c call = some c' := by
  obtain ⟨vma, rgs, fs, hlayout⟩ := reachable_layout (by decide) h
  refine ⟨?_, ?_, ?_, hlayout.holders_le, fun rgid hid => hlayout.libfree hid,
    fun call hadm => hlayout.call_isSome hadm⟩
  · rw [hlayout.brk_eq]
    exact hlayout.brk_dvd
  · intro rgid hid hlt
    exact hlayout.within hlt fun a ha => holders_ne_zero_of_recorded hid ha
  · intro rg hrg hlt
    exact hlayout.within hlt fun a ha => holders_ne_zero_of_free hrg ha

/-- A process over two frames of RAM. -/
def smallProc : Caller where
  mm := initMm .zeroed
  dev _ := Memphy.initMemphy .null ⟨fun _ => 0, 0, false, 0, .null⟩ 512 true

theorem ramOk_smallProc : RamOk smallProc.dev := ramOk_initMemphy rfl (by decide) (by decide) rfl

/-- An allocation, one for which there are too few frames, and a release. -/
def smallCalls : List RegionCall := [.liballoc 300 0, .liballoc 100 1, .libfree 0]

theorem regions_never_overlap_small :
    ∃ c, (regionSystem RamOk (2 ^ 22)).run smallProc smallCalls = some c ∧
      (pagingPagesz : ℤ) ∣ brk c.mm ∧ ∀ a, holders c.mm a ≤ 1 := by
  have hsome : ((regionSystem RamOk (2 ^ 22)).run smallProc smallCalls).isSome := by
    decide +kernel
  obtain ⟨c, hc⟩ := Option.isSome_iff_exists.mp hsome
  have hmain := regions_never_overlap (c := c) ⟨smallProc, smallCalls, ⟨rfl, ramOk_smallProc⟩, hc⟩
  exact ⟨c, hc, hmain.1, hmain.2.2.2.1⟩

end SimOs.Libmem
