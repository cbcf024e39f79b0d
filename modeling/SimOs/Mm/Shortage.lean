import SimOs.Mm.Coverage

/-!
# Too few frames

A request for more frames than RAM has must fail, give back what it got, and be reported.
None of this happens.  `alloc_pages_range` looks at `fp->fp_next` to see whether there is
a frame to give back, where `fp` is the last node it made: in cleared memory that field is
`NULL`, and the frames are kept; otherwise the loop runs past the last node.  And
`__alloc` returns 0 also if `inc_vma_limit` does not.

## Main definitions

* `GivesBack`: a failed frame request restores the free list.
* `gives_back_iff`: when it does.
* `Truthful`: `liballoc` returns 0 exactly if it has recorded the region.
* `truthful_iff`: when it does.
-/

namespace SimOs.Libmem

/-! ## The frame request -/

/-- A frame request returns an error, and the free list has the same frames as before. -/
def GivesBack (fresh : Fresh) (mram : Memphy) (reqPgnum : ℤ) (frmLst : Chain ℤ) : Prop :=
  ∃ mram' frames', allocPagesRange fresh mram reqPgnum frmLst = some (.err, mram') ∧
    mram'.freeFpList = Chain.ofList frames' ∧
    (frames' : Multiset ℤ) = (mram.freeFpList.toList : Multiset ℤ)

/-- **When a failed request gives everything back**: if there was nothing to give back, and
the memory of the node that it made was cleared. -/
theorem gives_back_iff (fresh : Fresh) {mram : Memphy} {frames : List ℤ} {reqPgnum : ℤ}
    (frmLst : Chain ℤ) (h : mram.freeFpList = Chain.ofList frames)
    (hfew : frames.length < reqPgnum) :
    GivesBack fresh mram reqPgnum frmLst ↔ frames = [] ∧ fresh.fpNext = .null := by
  have hrun : allocPagesRange fresh mram reqPgnum frmLst =
      if fresh.fpNext = .null then some (.err, { mram with freeFpList := .null }) else none :=
    allocPagesLoop_of_few fresh frmLst [] h (by omega)
  rw [GivesBack, hrun, h, Chain.toList_ofList]
  constructor
  · rintro ⟨mram', frames', hret, hlist, hsame⟩
    split at hret
    · next hnull =>
        obtain ⟨-, rfl⟩ := Prod.mk.inj (Option.some.inj hret)
        have hnone : frames' = [] := by
          rw [← Chain.toList_ofList frames', ← hlist]
          rfl
        rw [hnone, Multiset.coe_nil, eq_comm, Multiset.coe_eq_zero] at hsame
        exact ⟨hsame, hnull⟩
    · cases hret
  · rintro ⟨rfl, hnull⟩
    rw [if_pos hnull]
    exact ⟨_, [], rfl, rfl, rfl⟩

/-- A RAM that has no frame left. -/
def fullRam : Memphy := ⟨fun _ => 0, 512, true, 0, .null⟩

theorem gives_back_iff_fullRam : GivesBack .zeroed fullRam 1 .null := by
  have hlist : fullRam.freeFpList = Chain.ofList [] := rfl
  exact (gives_back_iff .zeroed .null hlist (by decide)).mpr ⟨rfl, rfl⟩

/-- **Two frames are lost.**  A request for three frames of a RAM of two fails and leaves
the free list empty. -/
theorem frames_lost :
    (smallProc.dev .mram).freeFpList = Chain.ofList [0, 1] ∧
      ¬ GivesBack .zeroed (smallProc.dev .mram) 3 .null := by
  have hlist : (smallProc.dev .mram).freeFpList = Chain.ofList [0, 1] := by decide +kernel
  refine ⟨hlist, ?_⟩
  rintro ⟨mram', frames', hret, hlist', hsame⟩
  rw [allocPagesRange, allocPagesLoop_of_few .zeroed .null [] hlist (by decide)] at hret
  obtain ⟨-, rfl⟩ := Prod.mk.inj (Option.some.inj hret)
  have hcount := congrArg Multiset.card hsame
  rw [Multiset.coe_card, Multiset.coe_card, hlist, Chain.toList_ofList,
    ← Chain.toList_ofList frames', ← hlist'] at hcount
  cases hcount

/-! ## The status of an allocation -/

/-- The calls of a process, and the other processes that share its RAM. -/
inductive SharedCall
  | call (call : RegionCall)
  /-- Other processes have taken frames, and left these on the free list. -/
  | others (frames : List ℤ)
  deriving DecidableEq

/-- The RAM after other processes have taken frames. -/
def leaveFrames (c : Caller) (frames : List ℤ) : Caller :=
  c.setDev .mram { c.dev .mram with freeFpList := Chain.ofList frames }

/-- All sequences of calls of a process from `init_mm`, with cleared memory, and whatever
other processes do to the free list of RAM in between. -/
def sharedSystem : Lts Caller SharedCall where
  init c := c.mm = initMm .zeroed ∧ RamOk c.dev
  step c
    | .call call => if call.Admissible (2 ^ 22) then regionCall .zeroed c call else none
    | .others frames =>
        if frames.length ≤ (freeFrames c).length then some (leaveFrames c frames) else none

/-- The call has recorded a region of `size` bytes under the id. -/
def Recorded (c c' : Caller) (size rgid : ℤ) : Prop :=
  c'.mm.symrgtbl rgid ≠ c.mm.symrgtbl rgid ∧
    (c'.mm.symrgtbl rgid).rgEnd - (c'.mm.symrgtbl rgid).rgStart = size

/-- `liballoc` returns 0 if and only if it has recorded the region, and an error if it has
not; and then symbol table, free list and break are as before. -/
def Truthful (c : Caller) (size rgid : ℤ) : Prop :=
  ∃ r c', liballoc .zeroed c size rgid = some (r, c') ∧
    (r ≠ .err ↔ Recorded c c' size rgid) ∧
    (¬ Recorded c c' size rgid → r = .err ∧ c'.mm.symrgtbl = c.mm.symrgtbl ∧
      freeRegions c'.mm = freeRegions c.mm ∧ brk c'.mm = brk c.mm)

/-- **Other processes** leave the regions alone. -/
theorem Layout.leaveFrames {c : Caller} {vma : VmArea} {rgs : List VmRg} {fs : List ℤ}
    (h : Layout c vma rgs fs) {frames : List ℤ} (hle : frames.length ≤ fs.length) :
    Layout (leaveFrames c frames) vma rgs frames where
  area := h.area
  free_eq := h.free_eq
  frames_eq := by rw [Libmem.leaveFrames, Caller.dev_setDev_self]
  brk_nonneg := h.brk_nonneg
  brk_dvd := h.brk_dvd
  room := by
    have hroom := h.room
    simp only [Libmem.leaveFrames, Caller.dev_setDev_self]
    simp only [pagingPagesz] at hroom ⊢
    omega
  maxsz_lt := by
    simp only [Libmem.leaveFrames, Caller.dev_setDev_self]
    exact h.maxsz_lt
  holders_le := h.holders_le
  inside := h.inside

theorem Bounded.leaveFrames {c : Caller} (h : Bounded c) {frames : List ℤ}
    (hle : frames.length ≤ (freeFrames c).length) : Bounded (leaveFrames c frames) := by
  obtain ⟨vma, rgs, fs, hl⟩ := h.layout
  rw [freeFrames, hl.frames_eq, Chain.toList_ofList] at hle
  exact ⟨⟨vma, rgs, frames, hl.leaveFrames hle⟩, h.free_le⟩

/-- A `liballoc` keeps the free regions below the break, whatever comes of it. -/
theorem Bounded.alloc {c : Caller} (h : Bounded c) {size rgid : ℤ} (hid : IsSymbol rgid)
    (hsize : 0 ≤ size) (hle : size ≤ 2 ^ 31 - 256) {r : Ret (Option ℤ) × Caller}
    (hr : Libmem.liballoc .zeroed c size rgid = some r) : Bounded r.2 := by
  obtain ⟨vma, rgs, fs, hl⟩ := h.layout
  rw [liballoc_eq hid hsize (by omega)] at hr
  have hcase := alloc_cases hl.area hr
  cases hcase with
  | overlap => exact h
  | noFrames mram hmram =>
      have hl' := hl.noFrames hmram
      refine ⟨⟨_, rgs, _, hl'⟩, ?_⟩
      intro rg hrg
      rw [hl'.freeRegions_eq, ← hl.freeRegions_eq] at hrg
      have hend := h.free_le rg hrg
      rw [hl.brk_eq] at hend
      rw [hl'.brk_eq]
      exact hend
  | placed mram hmram _ => exact (h.placed hl hid hsize hle hmram rfl).1

/-- **One step** keeps the free regions below the break. -/
theorem bounded_step {c c' : Caller} (h : Bounded c) {call : SharedCall}
    (hstep : sharedSystem.step c call = some c') : Bounded c' := by
  cases call with
  | call call =>
      simp only [sharedSystem] at hstep
      split at hstep
      · next hadm =>
          cases call with
          | liballoc size rgid =>
              obtain ⟨hid, hsize, hle⟩ := hadm
              obtain ⟨r, hr, rfl⟩ := Option.map_eq_some_iff.mp hstep
              exact h.alloc hid hsize (by omega) hr
          | libfree rgid => exact (covered_libfree h hadm hstep).1
      · cases hstep
  | others frames =>
      simp only [sharedSystem] at hstep
      split at hstep
      · next hle =>
          obtain rfl := Option.some.inj hstep
          exact h.leaveFrames hle
      · cases hstep

theorem reachable_bounded {c : Caller} (h : sharedSystem.Reachable c) : Bounded c := by
  refine h.invariant (P := Bounded) ?_ fun _ _ _ hc hstep => bounded_step hc hstep
  intro c hc
  exact (bounded_initMm hc).1

/-- A region at the break is not the one that was recorded before. -/
theorem Placed.recorded {c c' : Caller} {vma : VmArea} {rgs : List VmRg} {fs : List ℤ}
    {rgid size : ℤ} (h : Placed c c' vma rgid size) (hl : Layout c vma rgs fs)
    (hid : IsSymbol rgid) (hpos : 1 ≤ size) : Recorded c c' size rgid := by
  rw [Recorded, h.symrgtbl, Function.update_self]
  constructor
  · intro hsame
    have hlt : (c.mm.symrgtbl rgid).rgStart < (c.mm.symrgtbl rgid).rgEnd := by
      rw [← hsame]
      simp only
      omega
    have hbelow := (hl.within hlt fun a ha => holders_ne_zero_of_recorded hid ha).2
    rw [← hsame, hl.brk_eq] at hbelow
    simp only at hbelow
    omega
  · simp only
    omega

/-- **When the status is right**: if there are frames enough for the request. -/
theorem truthful_iff {c : Caller} (h : sharedSystem.Reachable c) {size rgid : ℤ}
    (hid : IsSymbol rgid) (hpos : 1 ≤ size) (hle : size ≤ 2 ^ 22) :
    Truthful c size rgid ↔ reqPages size ≤ (freeFrames c).length := by
  have hbounded := reachable_bounded h
  obtain ⟨vma, rgs, fs, hl⟩ := hbounded.layout
  constructor
  · rintro ⟨r, c', hr, hiff, -⟩
    rw [liballoc_eq hid (by omega) (by omega)] at hr
    have hcase := alloc_cases hl.area hr
    cases hcase with
    | overlap =>
        have hrec : Recorded c c size rgid := hiff.mp (by simp)
        exact absurd rfl hrec.1
    | noFrames mram _ =>
        have hrec := hiff.mp (by simp)
        exact absurd rfl hrec.1
    | placed mram hmram _ =>
        have hlen := (allocPagesRange_ok hl.frames_eq hmram).1
        rw [freeFrames, hl.frames_eq, Chain.toList_ofList]
        omega
  · intro hframes
    have hadm : (RegionCall.liballoc size rgid).Admissible (2 ^ 22) := ⟨hid, by omega, hle⟩
    obtain ⟨c', hc'⟩ := hl.call_isSome hadm
    obtain ⟨⟨r, c'⟩, hr, rfl⟩ := Option.map_eq_some_iff.mp hc'
    obtain ⟨-, hok, vma', rgs', fs', hl', hnew⟩ := hbounded.liballoc hid hpos (by omega) hframes hr
    have hrec : Recorded c c' size rgid := hnew.recorded hl' hid hpos
    exact ⟨r, c', hr, iff_of_true hok hrec, fun hno => absurd hrec hno⟩

/-- The allocation of a second page, after other processes have taken frames. -/
theorem truthful_iff_others :
    ∃ c, sharedSystem.run smallProc [.call (.liballoc 100 0), .others [1]] = some c ∧
      Truthful c 200 1 := by
  have hrun : (sharedSystem.run smallProc [.call (.liballoc 100 0), .others [1]]).any fun c =>
      reqPages 200 ≤ (freeFrames c).length := by decide +kernel
  obtain ⟨c, hc, hframes⟩ := (Option.any_eq_true _ _).mp hrun
  exact ⟨c, hc, (truthful_iff ⟨smallProc, _, ⟨rfl, ramOk_smallProc⟩, hc⟩ (by decide) (by decide)
    (by decide)).mpr (of_decide_eq_true hframes)⟩

/-- **An allocation of 600 bytes** on a RAM of two frames returns 0, and records nothing. -/
theorem status_wrong_600 :
    sharedSystem.Reachable smallProc ∧ ¬ Truthful smallProc 600 0 := by
  refine ⟨Lts.Reachable.of_init ⟨rfl, ramOk_smallProc⟩, ?_⟩
  rintro ⟨r, c', hr, hiff, -⟩
  have hrun : (liballoc .zeroed smallProc 600 0).all fun r =>
      r.1 ≠ .err ∧ r.2.mm.symrgtbl 0 = smallProc.mm.symrgtbl 0 := by decide +kernel
  rw [hr, Option.all_some] at hrun
  obtain ⟨hok, hsame⟩ := of_decide_eq_true hrun
  exact (hiff.mp hok).1 hsame

end SimOs.Libmem
