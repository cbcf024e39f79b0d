import SimOs.Mm.SysMem
import SimOs.Mm.Exchange

/-!
# What `memmap` checks

The arguments of `memmap` come from the user program.  `get_vma_by_num` walks to the
first area whose id is not below the one asked for, and beyond the last area it follows
`NULL`; `inc_vma_limit` does not test what it returns.  `MEMPHY_read` and `MEMPHY_write`
do not compare an address with the size of the device, and `__swap_cp_page` does not look
at its frames.  Only a sequential device refuses an access, and it refuses all of them.

A pointer to `NULL` that is followed and an access outside `storage` are `none` in the
model of these functions.

## Main definitions

* `IncSafe`, `ReadSafe`, `WriteSafe`, `CopySafe`, `MemmapSafe`: what safe calls do.
* `StaysInside`: what a call must do to be defined at all.
* `InBounds`: the arguments for which the call is safe.
* `memmap_safe_iff`: exactly for these.
-/

namespace SimOs

namespace Memphy

variable {mp : Memphy} {addr : ℤ}

/-- A read stays inside `storage`. -/
theorem read_isSome_iff : (mp.read addr).isSome ↔ (mp.rdmflg → mp.InRange addr) := by
  by_cases hflag : mp.rdmflg
  · by_cases hin : mp.InRange addr
    · simp [read_of_inRange hflag hin, hin]
    · simp [read, load, hflag, hin]
  · simp [read, seqRead, hflag]

/-- A write stays inside `storage`. -/
theorem write_isSome_iff (data : BYTE) :
    (mp.write addr data).isSome ↔ (mp.rdmflg → mp.InRange addr) := by
  by_cases hflag : mp.rdmflg
  · by_cases hin : mp.InRange addr
    · simp [write_of_inRange hflag hin, hin]
    · simp [write, store, hflag, hin]
  · simp [write, seqWrite, hflag]

/-- Only a sequential device refuses a read. -/
theorem read_refused_iff : mp.read addr = some (.err, mp) ↔ ¬ mp.rdmflg := by
  by_cases hflag : mp.rdmflg
  · by_cases hin : mp.InRange addr
    · simp [read_of_inRange hflag hin, hflag]
    · simp [read, load, hflag, hin]
  · simp [read, seqRead, hflag]

/-- Only a sequential device refuses a write. -/
theorem write_refused_iff (data : BYTE) :
    mp.write addr data = some (.err, mp) ↔ ¬ mp.rdmflg := by
  by_cases hflag : mp.rdmflg
  · by_cases hin : mp.InRange addr
    · simp [write_of_inRange hflag hin, hflag]
    · simp [write, store, hflag, hin]
  · simp [write, seqWrite, hflag]

/-- The cells of a frame inside a device are cells of its storage. -/
theorem inRange_cellAddr {fpn : ℤ} {k : ℕ} (hmax : mp.maxsz < 2 ^ 31) (hflag : mp.rdmflg)
    (hin : mp.FrameInside fpn) (hk : k < pagingPagesz) : mp.InRange (cellAddr fpn k) := by
  obtain ⟨haddr, hrange⟩ := cellAddr_inside ⟨hflag, hmax⟩ hin hk
  rw [haddr]
  exact hrange

end Memphy

namespace Libmem

/-- The areas are a list in the order of their ids, which are unsigned, and the sizes of
the devices are `int`s. -/
structure AscendingAreas (c : Caller) : Prop where
  mmap : c.mm.mmap = .ofList c.mm.mmap.toList
  ascending : c.mm.mmap.toList.Pairwise fun vma vma' => vma.vmId ≤ vma'.vmId
  vmId_nonneg : ∀ vma ∈ c.mm.mmap.toList, 0 ≤ vma.vmId
  maxsz_lt : ∀ d, (c.dev d).maxsz < 2 ^ 31

/-- The area with the id is found if there is one, and an area that is missing is refused,
so that no `NULL` is followed on the way. -/
structure IncSafe (fresh : Fresh) (c : Caller) (vmaid incSz : ℤ) : Prop where
  lookup : getVmaByNum c.mm vmaid = some (c.mm.mmap.toList.findIdx? fun vma => vma.vmId = vmaid)
  missing : (∀ vma ∈ c.mm.mmap.toList, vma.vmId ≠ vmaid) →
    incVmaLimit fresh c vmaid incSz = some (.err, c)

/-- A read stays inside the device, and one of an address outside is refused. -/
structure ReadSafe (mp : Memphy) (addr : ℤ) : Prop where
  inside : (mp.read addr).isSome
  refused : ¬ mp.InRange addr → mp.read addr = some (.err, mp)

/-- A write stays inside the device, and one to an address outside is refused. -/
structure WriteSafe (mp : Memphy) (addr : ℤ) (data : BYTE) : Prop where
  inside : (mp.write addr data).isSome
  refused : ¬ mp.InRange addr → mp.write addr data = some (.err, mp)

/-- The reads and writes of a copy stay inside the devices, and if one of the frames is
outside its device then nothing is written. -/
structure CopySafe (src dst : Memphy) (srcfpn dstfpn : ℤ) : Prop where
  reads : ∀ k < pagingPagesz, (src.read (cellAddr srcfpn k)).isSome
  writes : ∀ k < pagingPagesz, ∀ data, (dst.write (cellAddr dstfpn k) data).isSome
  refused : ¬ (src.FrameInside srcfpn ∧ dst.FrameInside dstfpn) →
    ∀ k < pagingPagesz, ∀ data, dst.write (cellAddr dstfpn k) data = some (.err, dst)

/-- The call asks for an area that is missing, or for an address or a frame outside a
device. -/
def AsksOutside (c : Caller) (regs : ScRegs) : Prop :=
  (regs.a1.toInt = sysmemIncOp ∧ ∀ vma ∈ c.mm.mmap.toList, vma.vmId ≠ regs.a2.toInt) ∨
    (regs.a1.toInt = sysmemSwpOp ∧ ¬ ((c.dev .mram).FrameInside regs.a2.toInt ∧
      (c.dev .activeMswp).FrameInside regs.a3.toInt)) ∨
    ((regs.a1.toInt = sysmemIoRead ∨ regs.a1.toInt = sysmemIoWrite) ∧
      ¬ (c.dev .mram).InRange regs.a2.toInt)

/-- **`__sys_memmap`** is safe. -/
structure MemmapSafe (fresh : Fresh) (c : Caller) (regs : ScRegs) : Prop where
  inc : regs.a1.toInt = sysmemIncOp → IncSafe fresh c regs.a2.toInt regs.a3.toInt
  swp : regs.a1.toInt = sysmemSwpOp →
    CopySafe (c.dev .mram) (c.dev .activeMswp) regs.a2.toInt regs.a3.toInt
  ioRead : regs.a1.toInt = sysmemIoRead → ReadSafe (c.dev .mram) regs.a2.toInt
  ioWrite : regs.a1.toInt = sysmemIoWrite →
    WriteSafe (c.dev .mram) regs.a2.toInt (regs.a3.setWidth 8)
  /-- What lies outside changes nothing. -/
  unchanged : AsksOutside c regs → ∀ r, sysMemmap fresh c regs = some r → r.2 = c

/-- The frames of a copy are inside their devices.  If the destination is sequential then
only the addresses that are read matter. -/
def FramesInBounds (src dst : Memphy) (srcfpn dstfpn : ℤ) : Prop :=
  if dst.rdmflg then src.FrameInside srcfpn ∧ dst.FrameInside dstfpn
  else src.rdmflg → ∀ k < pagingPagesz, src.InRange (cellAddr srcfpn k)

/-- The arguments name an area that exists, an address of RAM if it is a random access
device, and frames inside their devices. -/
structure InBounds (c : Caller) (regs : ScRegs) : Prop where
  inc : regs.a1.toInt = sysmemIncOp → ∃ vma ∈ c.mm.mmap.toList, vma.vmId = regs.a2.toInt
  swp : regs.a1.toInt = sysmemSwpOp →
    FramesInBounds (c.dev .mram) (c.dev .activeMswp) regs.a2.toInt regs.a3.toInt
  io : regs.a1.toInt = sysmemIoRead ∨ regs.a1.toInt = sysmemIoWrite →
    (c.dev .mram).rdmflg → (c.dev .mram).InRange regs.a2.toInt

/-! ## The walk through the areas -/

/-- The walk stops at the first area whose id, as an `int`, is not below `vmaid`. -/
theorem vmaLoop_ofList (vmaid : ℤ) (vmas : List VmArea) (k : ℕ) :
    vmaLoop vmaid (.ofList vmas) k =
      (vmas.findIdx? fun vma => vmaid ≤ CInt.sint 32 vma.vmId).map (· + k) := by
  induction vmas generalizing k with
  | nil => rfl
  | cons vma vmas ih =>
      rw [Chain.ofList_cons, vmaLoop, List.findIdx?_cons]
      by_cases hlt : CInt.sint 32 vma.vmId < vmaid
      · rw [if_pos hlt, if_neg (by simpa using hlt), ih, Option.map_map]
        congr 1
        ext i
        simp only [Function.comp_apply]
        omega
      · rw [if_neg hlt, if_pos (by simpa using hlt)]
        simp

/-- On the way to an area that exists no id is cut short. -/
theorem findIdx?_of_mem {vmaid : ℤ} {vmas : List VmArea} (hlt : vmaid < 2 ^ 31)
    (hsorted : vmas.Pairwise fun vma vma' => vma.vmId ≤ vma'.vmId)
    (hnonneg : ∀ vma ∈ vmas, 0 ≤ vma.vmId) (hmem : ∃ vma ∈ vmas, vma.vmId = vmaid) :
    (vmas.findIdx? fun vma => vmaid ≤ CInt.sint 32 vma.vmId) =
      vmas.findIdx? fun vma => vma.vmId = vmaid := by
  induction vmas with
  | nil => simp
  | cons vma vmas ih =>
      obtain ⟨hfirst, hrest⟩ := List.pairwise_cons.mp hsorted
      have h0 : 0 ≤ vma.vmId := hnonneg vma List.mem_cons_self
      have hle : vma.vmId ≤ vmaid := by
        obtain ⟨vma', hvma', rfl⟩ := hmem
        cases List.mem_cons.mp hvma' with
        | inl heq => rw [heq]
        | inr hin => exact hfirst vma' hin
      have hint : CInt.sint 32 vma.vmId = vma.vmId := CInt.sint_eq (by omega) (by omega)
      rw [List.findIdx?_cons, List.findIdx?_cons, hint]
      by_cases heq : vma.vmId = vmaid
      · simp [heq]
      · have hmem' : ∃ vma ∈ vmas, vma.vmId = vmaid := by
          obtain ⟨vma', hvma', hid⟩ := hmem
          cases List.mem_cons.mp hvma' with
          | inl hhead => exact absurd (hhead ▸ hid) heq
          | inr hin => exact ⟨vma', hin, hid⟩
        have hnot : ¬ vmaid ≤ vma.vmId := by omega
        rw [if_neg (by simpa using hnot), if_neg (by simpa using heq),
          ih hrest (fun v hv => hnonneg v (List.mem_cons_of_mem vma hv)) hmem']

/-- **`get_vma_by_num`** on a list that is not empty. -/
theorem getVmaByNum_ofList {mm : Mm} {vmas : List VmArea} (hmmap : mm.mmap = .ofList vmas)
    (hne : vmas ≠ []) (vmaid : ℤ) :
    getVmaByNum mm vmaid =
      (vmas.findIdx? fun vma => vmaid ≤ CInt.sint 32 vma.vmId).map some := by
  have hnull : ¬ mm.mmap.isNull := by
    rw [hmmap]
    cases vmas with
    | nil => exact absurd rfl hne
    | cons vma vmas => simp [Chain.isNull]
  rw [getVmaByNum, if_neg hnull, hmmap, vmaLoop_ofList]
  simp

/-- **`inc_vma_limit`** follows the pointer that it gets, `NULL` or not. -/
theorem incVmaLimit_of_null {fresh : Fresh} {c : Caller} {vmaid : ℤ} (incSz : ℤ)
    (h : getVmaByNum c.mm vmaid = some none) : incVmaLimit fresh c vmaid incSz = none := by
  simp only [incVmaLimit, h]

/-! ## Each operation -/

section

variable {fresh : Fresh} {c : Caller}

/-- **An enlargement** is safe exactly if the area exists: of the areas that do not, the
first walk finds another one or follows `NULL`, and the empty list is followed later. -/
theorem incSafe_iff (h : AscendingAreas c) {vmaid : ℤ} (hlt : vmaid < 2 ^ 31) (incSz : ℤ) :
    IncSafe fresh c vmaid incSz ↔ ∃ vma ∈ c.mm.mmap.toList, vma.vmId = vmaid := by
  constructor
  · intro hsafe
    by_contra hno
    have hnone : ∀ vma ∈ c.mm.mmap.toList, vma.vmId ≠ vmaid := fun vma hvma hid =>
      hno ⟨vma, hvma, hid⟩
    have hidx : (c.mm.mmap.toList.findIdx? fun vma => vma.vmId = vmaid) = none := by
      simpa using hnone
    have hlookup := hsafe.lookup
    rw [hidx] at hlookup
    have hrefused := hsafe.missing hnone
    rw [incVmaLimit_of_null incSz hlookup] at hrefused
    cases hrefused
  · intro hmem
    constructor
    · obtain ⟨vma, hvma, hid⟩ := hmem
      rw [getVmaByNum_ofList h.mmap (List.ne_nil_of_mem hvma),
        findIdx?_of_mem hlt h.ascending h.vmId_nonneg ⟨vma, hvma, hid⟩,
        List.findIdx?_eq_some_of_exists ⟨vma, hvma, by simpa using hid⟩]
      rfl
    · intro hnone
      obtain ⟨vma, hvma, hid⟩ := hmem
      exact absurd hid (hnone vma hvma)

/-- **A read** is safe exactly at an address of a random access device. -/
theorem readSafe_iff (mp : Memphy) (addr : ℤ) :
    ReadSafe mp addr ↔ (mp.rdmflg → mp.InRange addr) := by
  constructor
  · intro h
    exact Memphy.read_isSome_iff.mp h.inside
  · intro h
    refine ⟨Memphy.read_isSome_iff.mpr h, ?_⟩
    intro hout
    exact Memphy.read_refused_iff.mpr fun hflag => hout (h hflag)

/-- **A write** likewise. -/
theorem writeSafe_iff (mp : Memphy) (addr : ℤ) (data : BYTE) :
    WriteSafe mp addr data ↔ (mp.rdmflg → mp.InRange addr) := by
  constructor
  · intro h
    exact (Memphy.write_isSome_iff data).mp h.inside
  · intro h
    refine ⟨(Memphy.write_isSome_iff data).mpr h, ?_⟩
    intro hout
    exact (Memphy.write_refused_iff data).mpr fun hflag => hout (h hflag)

/-- **A copy** is safe exactly if its frames are in bounds. -/
theorem copySafe_iff {src dst : Memphy} (hsrc : src.maxsz < 2 ^ 31) (hdst : dst.maxsz < 2 ^ 31)
    (srcfpn dstfpn : ℤ) :
    CopySafe src dst srcfpn dstfpn ↔ FramesInBounds src dst srcfpn dstfpn := by
  rw [FramesInBounds]
  by_cases hflag : dst.rdmflg
  · rw [if_pos hflag]
    constructor
    · intro h
      by_contra hout
      have hfirst := h.refused hout 0 (by decide) 0
      exact (Memphy.write_refused_iff 0).mp hfirst hflag
    · intro h
      refine ⟨?_, ?_, fun hout => absurd h hout⟩
      · intro k hk
        exact Memphy.read_isSome_iff.mpr fun hrandom =>
          Memphy.inRange_cellAddr hsrc hrandom h.1 hk
      · intro k hk data
        exact (Memphy.write_isSome_iff data).mpr fun hrandom =>
          Memphy.inRange_cellAddr hdst hrandom h.2 hk
  · rw [if_neg hflag]
    constructor
    · intro h hrandom k hk
      exact Memphy.read_isSome_iff.mp (h.reads k hk) hrandom
    · intro h
      refine ⟨?_, ?_, ?_⟩
      · intro k hk
        exact Memphy.read_isSome_iff.mpr fun hrandom => h hrandom k hk
      · intro k _ data
        exact (Memphy.write_isSome_iff data).mpr fun hrandom => absurd hrandom hflag
      · intro _ k _ data
        exact (Memphy.write_refused_iff data).mpr hflag

/-! ## The call -/

/-- The cells that `__swap_cp_page` has accessed are inside the devices. -/
theorem swapCpCells_inside {dev dev' : Dev → Memphy} {mpsrc mpdst : Dev} {srcfpn dstfpn : ℤ}
    {n : ℕ} (hn : n ≤ pagingPagesz)
    (h : swapCpCells dev mpsrc srcfpn mpdst dstfpn n = some dev') {k : ℕ} (hk : k < n) :
    ((dev mpsrc).read (cellAddr srcfpn k)).isSome ∧
      ∀ data, ((dev mpdst).write (cellAddr dstfpn k) data).isSome := by
  induction n generalizing dev' with
  | zero => omega
  | succ n ih =>
      obtain ⟨mid, hmid, hcell⟩ := Option.bind_eq_some_iff.mp h
      by_cases hlast : k < n
      · exact ih (by omega) hmid hlast
      · obtain rfl : k = n := by omega
        obtain ⟨hsame, hother⟩ := swapCpCells_sameBut (by omega) hmid
        -- mode and size of the devices have not changed since the first trip
        have hmode : ∀ d, (mid d).rdmflg = (dev d).rdmflg ∧ (mid d).maxsz = (dev d).maxsz := by
          intro d
          by_cases hd : d = mpdst
          · subst hd
            exact ⟨hsame.rdmflg, hsame.maxsz⟩
          · rw [hother d hd]
            exact ⟨rfl, rfl⟩
        rw [swapCpCell] at hcell
        split at hcell
        · next data mp hread =>
            obtain ⟨rfl, -⟩ := Memphy.read_eq_some hread
            obtain ⟨r, hwrite, -⟩ := Option.map_eq_some_iff.mp hcell
            rw [Function.update_eq_self] at hwrite
            have hin := Memphy.read_isSome_iff.mp (Option.isSome_of_eq_some hread)
            have hin' := (Memphy.write_isSome_iff data).mp (Option.isSome_of_eq_some hwrite)
            rw [Memphy.InRange, (hmode _).1, (hmode _).2] at hin hin'
            exact ⟨Memphy.read_isSome_iff.mpr hin, fun data =>
              (Memphy.write_isSome_iff data).mpr hin'⟩
        · cases hcell

/-- A copy to a sequential device writes nothing. -/
theorem swapCpCells_sequential {dev dev' : Dev → Memphy} {mpsrc mpdst : Dev}
    {srcfpn dstfpn : ℤ} {n : ℕ} (hflag : ¬ (dev mpdst).rdmflg)
    (h : swapCpCells dev mpsrc srcfpn mpdst dstfpn n = some dev') : dev' = dev := by
  induction n generalizing dev' with
  | zero => exact (Option.some.inj h).symm
  | succ n ih =>
      obtain ⟨mid, hmid, hcell⟩ := Option.bind_eq_some_iff.mp h
      obtain rfl := ih hmid
      rw [swapCpCell] at hcell
      split at hcell
      · next data mp hread =>
          obtain ⟨rfl, -⟩ := Memphy.read_eq_some hread
          simp only [Function.update_eq_self,
            (Memphy.write_refused_iff data).mpr hflag, Option.map_some] at hcell
          exact (Option.some.inj hcell).symm
      · cases hcell

/-- What a call that is defined has followed and accessed. -/
structure StaysInside (c : Caller) (regs : ScRegs) : Prop where
  inc : regs.a1.toInt = sysmemIncOp → ∃ k, getVmaByNum c.mm regs.a2.toInt = some (some k)
  swp : regs.a1.toInt = sysmemSwpOp → ∀ k < pagingPagesz,
    ((c.dev .mram).read (cellAddr regs.a2.toInt k)).isSome ∧
      ∀ data, ((c.dev .activeMswp).write (cellAddr regs.a3.toInt k) data).isSome
  ioRead : regs.a1.toInt = sysmemIoRead → ((c.dev .mram).read regs.a2.toInt).isSome
  ioWrite : regs.a1.toInt = sysmemIoWrite →
    ((c.dev .mram).write regs.a2.toInt (regs.a3.setWidth 8)).isSome

theorem sysMemmap_inc {regs : ScRegs} (hop : regs.a1.toInt = sysmemIncOp) :
    sysMemmap fresh c regs =
      (incVmaLimit fresh c regs.a2.toInt regs.a3.toInt).map fun r => (regs, r.2) := by
  simp [sysMemmap, hop, sysmemMapOp, sysmemIncOp]

theorem sysMemmap_swp {regs : ScRegs} (hop : regs.a1.toInt = sysmemSwpOp) :
    sysMemmap fresh c regs =
      (mmSwapPage c regs.a2.toInt regs.a3.toInt).map fun c => (regs, c) := by
  simp [sysMemmap, hop, sysmemMapOp, sysmemIncOp, sysmemSwpOp]

theorem sysMemmap_ioWrite {regs : ScRegs} (hop : regs.a1.toInt = sysmemIoWrite) :
    sysMemmap fresh c regs =
      ((c.dev .mram).write regs.a2.toInt (regs.a3.setWidth 8)).map fun r =>
        (regs, c.setDev .mram r.2) := by
  simp [sysMemmap, hop, sysmemMapOp, sysmemIncOp, sysmemSwpOp, sysmemIoRead, sysmemIoWrite]

theorem sysMemmap_ioRead_eq_some {regs : ScRegs} {r : ScRegs × Caller}
    (hop : regs.a1.toInt = sysmemIoRead) (h : sysMemmap fresh c regs = some r) :
    ((c.dev .mram).read regs.a2.toInt).isSome ∧ r.2 = c := by
  simp only [sysMemmap, hop, sysmemMapOp, sysmemIncOp, sysmemSwpOp, sysmemIoRead] at h
  simp only [Int.reduceEq, if_false, if_true] at h
  split at h
  · next value mram hread =>
      obtain rfl := Option.some.inj h
      obtain ⟨rfl, -⟩ := Memphy.read_eq_some hread
      exact ⟨Option.isSome_of_eq_some hread, c.setDev_dev .mram⟩
  · cases h

/-- **A `NULL` that is followed or a cell outside** makes the call undefined. -/
theorem sysMemmap_staysInside {regs : ScRegs} {r : ScRegs × Caller}
    (h : sysMemmap fresh c regs = some r) : StaysInside c regs := by
  constructor
  · intro hop
    rw [sysMemmap_inc hop] at h
    obtain ⟨r', hinc, -⟩ := Option.map_eq_some_iff.mp h
    cases hget : getVmaByNum c.mm regs.a2.toInt with
    | none => simp [incVmaLimit, hget] at hinc
    | some k =>
        cases k with
        | none => simp [incVmaLimit, hget] at hinc
        | some k => exact ⟨k, rfl⟩
  · intro hop k hk
    rw [sysMemmap_swp hop, mmSwapPage] at h
    obtain ⟨c', hswap, -⟩ := Option.map_eq_some_iff.mp h
    obtain ⟨dev, hcopy, -⟩ := Option.map_eq_some_iff.mp hswap
    exact swapCpCells_inside le_rfl hcopy hk
  · intro hop
    exact (sysMemmap_ioRead_eq_some hop h).1
  · intro hop
    rw [sysMemmap_ioWrite hop] at h
    obtain ⟨r', hwrite, -⟩ := Option.map_eq_some_iff.mp h
    exact Option.isSome_of_eq_some hwrite

/-- In bounds, what is outside is refused by a sequential device. -/
theorem InBounds.unchanged {regs : ScRegs} (hin : InBounds c regs) (hout : AsksOutside c regs)
    {r : ScRegs × Caller} (h : sysMemmap fresh c regs = some r) : r.2 = c := by
  rcases hout with ⟨hop, hmissing⟩ | ⟨hop, hframes⟩ | ⟨hop, hrange⟩
  · obtain ⟨vma, hvma, hid⟩ := hin.inc hop
    exact absurd hid (hmissing vma hvma)
  · have hbounds := hin.swp hop
    rw [FramesInBounds] at hbounds
    split at hbounds
    · exact absurd hbounds hframes
    · next hflag =>
        rw [sysMemmap_swp hop, mmSwapPage] at h
        obtain ⟨c', hswap, rfl⟩ := Option.map_eq_some_iff.mp h
        obtain ⟨dev, hcopy, rfl⟩ := Option.map_eq_some_iff.mp hswap
        rw [swapCpCells_sequential hflag hcopy]
  · have hflag : ¬ (c.dev .mram).rdmflg := fun hflag => hrange (hin.io hop hflag)
    cases hop with
    | inl hread => exact (sysMemmap_ioRead_eq_some hread h).2
    | inr hwrite =>
        rw [sysMemmap_ioWrite hwrite, (Memphy.write_refused_iff _).mpr hflag,
          Option.map_some] at h
        obtain rfl := Option.some.inj h
        exact c.setDev_dev .mram

/-- **When `memmap` is safe**: exactly if its arguments are in bounds. -/
theorem memmap_safe_iff (h : AscendingAreas c) (regs : ScRegs) :
    MemmapSafe fresh c regs ↔ InBounds c regs := by
  have hvmaid : regs.a2.toInt < 2 ^ 31 := by simpa using BitVec.toInt_lt (x := regs.a2)
  have hcopy := copySafe_iff (h.maxsz_lt .mram) (h.maxsz_lt .activeMswp) regs.a2.toInt
    regs.a3.toInt
  constructor
  · intro hsafe
    constructor
    · intro hop
      exact (incSafe_iff h hvmaid _).mp (hsafe.inc hop)
    · intro hop
      exact hcopy.mp (hsafe.swp hop)
    · intro hop
      cases hop with
      | inl hread => exact (readSafe_iff _ _).mp (hsafe.ioRead hread)
      | inr hwrite => exact (writeSafe_iff _ _ _).mp (hsafe.ioWrite hwrite)
  · intro hin
    constructor
    · intro hop
      exact (incSafe_iff h hvmaid _).mpr (hin.inc hop)
    · intro hop
      exact hcopy.mpr (hin.swp hop)
    · intro hop
      exact (readSafe_iff _ _).mpr (hin.io (Or.inl hop))
    · intro hop
      exact (writeSafe_iff _ _ _).mpr (hin.io (Or.inr hop))
    · intro hout r hr
      exact hin.unchanged hout hr

end

/-- The process has one area, number 0. -/
theorem ascendingAreas_smallProc : AscendingAreas smallProc where
  mmap := rfl
  ascending := List.pairwise_singleton _ _
  vmId_nonneg vma hvma := by
    obtain rfl := List.mem_singleton.mp hvma
    exact le_rfl
  maxsz_lt _ := (by decide : (512 : ℤ) < 2 ^ 31)

theorem memmap_safe_iff_smallProc :
    MemmapSafe .zeroed smallProc ⟨4, 511, 0⟩ ↔ InBounds smallProc ⟨4, 511, 0⟩ :=
  memmap_safe_iff ascendingAreas_smallProc _

/-- **Unsafe calls**: an enlargement of an area that does not exist follows `NULL`, and a
read of address `maxsz` gets past the end of RAM. -/
theorem memmap_unsafe :
    (sysMemmap .zeroed smallProc ⟨2, 5, 256⟩).isNone ∧
      ¬ MemmapSafe .zeroed smallProc ⟨2, 5, 256⟩ ∧
      (sysMemmap .zeroed smallProc ⟨4, 512, 0⟩).isNone ∧
      ¬ MemmapSafe .zeroed smallProc ⟨4, 512, 0⟩ := by
  refine ⟨by decide +kernel, ?_, by decide +kernel, ?_⟩
  · intro h
    have hlookup := (h.inc (by decide)).lookup
    exact absurd hlookup (by decide)
  · intro h
    have hinside := (h.ioRead (by decide)).inside
    exact absurd hinside (by decide +kernel)

end Libmem

end SimOs
