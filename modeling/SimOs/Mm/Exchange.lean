import SimOs.Lib.Store
import SimOs.Mm.Mapping

/-!
# The exchange of a page fault

A page fault that succeeds moves two pages.  The oldest page of the FIFO list leaves its
RAM frame for the first free frame of swap, and the page asked for comes from its own
swap frame into the RAM frame, after which its swap frame is free.  The swap frame of
the page asked for is not free, so the first copy does not overwrite it before the
second one reads it.

The entry of the evicted page has 21 bits for the swap offset.  They number the frames
of a swap device of 512 MiB, and of a larger one only the low bits are kept.

## Main definitions

* `swapCpPage_eq`: what `__swap_cp_page` writes.
* `Faulting`, `Exchanged`: the states before and after.
* `page_fault_exchanges`: the exchange succeeds, and moves the right pages.
-/

namespace SimOs

/-- A random access device whose size is an `int`. -/
structure Memphy.Random (mp : Memphy) : Prop where
  rdmflg : mp.rdmflg = true
  maxsz_lt : mp.maxsz < 2 ^ 31

/-- The addresses of a frame inside a device do not wrap. -/
theorem cellAddr_inside {mp : Memphy} {fpn : ℤ} {k : ℕ} (hmp : mp.Random)
    (hin : mp.FrameInside fpn) (hk : k < pagingPagesz) :
    cellAddr fpn k = fpn * pagingPagesz + k ∧ mp.InRange (fpn * pagingPagesz + k) := by
  obtain ⟨h0, hle⟩ := hin
  have hmax := hmp.maxsz_lt
  simp only [pagingPagesz] at hk hle ⊢
  constructor
  · exact CInt.sint_eq (by simp only [pagingPagesz]; omega) (by simp only [pagingPagesz]; omega)
  · constructor
    · omega
    · omega

/-- The destination device after `n` cells were copied. -/
def Memphy.copiedFrom (dst src : Memphy) (dstfpn srcfpn : ℤ) (n : ℕ) : Memphy :=
  { dst with
    storage := Copy.copied src.storage dst.storage (srcfpn * pagingPagesz)
      (dstfpn * pagingPagesz) n }

variable {dev : Dev → Memphy} {mpsrc mpdst : Dev} {srcfpn dstfpn : ℤ}

/-- The loop of `__swap_cp_page`.  On one device the frames are the same or apart, so the
cell that is read next has not been written yet. -/
theorem swapCpCells_eq (hsrc : (dev mpsrc).Random) (hdst : (dev mpdst).Random)
    (hsrcIn : (dev mpsrc).FrameInside srcfpn) (hdstIn : (dev mpdst).FrameInside dstfpn) {n : ℕ}
    (hn : n ≤ pagingPagesz) :
    swapCpCells dev mpsrc srcfpn mpdst dstfpn n = some (Function.update dev mpdst
      ((dev mpdst).copiedFrom (dev mpsrc) dstfpn srcfpn n)) := by
  induction n with
  | zero =>
      rw [swapCpCells, Memphy.copiedFrom, Copy.copied_zero]
      exact congrArg some (Function.update_eq_self mpdst dev).symm
  | succ n ih =>
      obtain ⟨haddr, hrange⟩ := cellAddr_inside hsrc hsrcIn hn
      obtain ⟨haddr', hrange'⟩ := cellAddr_inside hdst hdstIn hn
      have hread : (Function.update dev mpdst ((dev mpdst).copiedFrom (dev mpsrc) dstfpn srcfpn n)
          mpsrc).read (srcfpn * pagingPagesz + n) =
          some (.ok ((dev mpsrc).storage (srcfpn * pagingPagesz + n)),
            Function.update dev mpdst ((dev mpdst).copiedFrom (dev mpsrc) dstfpn srcfpn n)
              mpsrc) := by
        by_cases hsame : mpsrc = mpdst
        · subst hsame
          have happart : srcfpn * pagingPagesz + n < dstfpn * pagingPagesz ∨
              dstfpn * (pagingPagesz : ℤ) + n ≤ srcfpn * pagingPagesz + n := by
            simp only [pagingPagesz] at hn ⊢
            omega
          have hval : ((dev mpsrc).copiedFrom (dev mpsrc) dstfpn srcfpn n).storage
              (srcfpn * pagingPagesz + n) = (dev mpsrc).storage (srcfpn * pagingPagesz + n) :=
            Copy.copied_outside _ _ _ happart
          rw [Function.update_self, Memphy.read_of_inRange (by exact hsrc.rdmflg)
            (by exact hrange), hval]
        · rw [Function.update_of_ne hsame, Memphy.read_of_inRange hsrc.rdmflg hrange]
      rw [swapCpCells, ih (Nat.le_of_succ_le hn), Option.bind_some, swapCpCell, haddr, haddr',
        hread]
      simp only
      rw [Function.update_eq_self, Function.update_self,
        Memphy.write_of_inRange (by exact hdst.rdmflg) (by exact hrange'),
        Option.map_some, Function.update_idem]
      congr 2
      simp only [Memphy.copiedFrom, Copy.update_copied]

/-- **What `__swap_cp_page` writes.** -/
theorem swapCpPage_eq (hsrc : (dev mpsrc).Random) (hdst : (dev mpdst).Random)
    (hsrcIn : (dev mpsrc).FrameInside srcfpn) (hdstIn : (dev mpdst).FrameInside dstfpn) :
    swapCpPage dev mpsrc srcfpn mpdst dstfpn = some (Function.update dev mpdst
      ((dev mpdst).copiedFrom (dev mpsrc) dstfpn srcfpn pagingPagesz)) :=
  swapCpCells_eq hsrc hdst hsrcIn hdstIn le_rfl

namespace Libmem

/-- A state in which the access to page `pgn`, which is in swap frame `t`, evicts page `v`
from RAM frame `f` to swap frame `s`.  The FIFO list has the pages `newer` before `v`,
the free list of swap the frames `rest` after `s`. -/
structure Faulting (c : Caller) (pgn t v f s : ℤ) (newer rest : List ℤ) : Prop where
  ram : (c.dev .mram).Random
  swap : (c.dev .activeMswp).Random
  page : IsPage pgn
  absent : ¬ PagePresent (c.mm.pgd pgn.toNat)
  target : pagingPteSwp (c.mm.pgd pgn.toNat) = t
  target_inside : (c.dev .activeMswp).FrameInside t
  target_used : t ∉ s :: rest
  free_eq : (c.dev .activeMswp).freeFpList = Chain.ofList (s :: rest)
  free_inside : ∀ fpn ∈ s :: rest, (c.dev .activeMswp).FrameInside fpn
  free_nodup : (s :: rest).Nodup
  fifo_eq : c.mm.fifoPgn = Chain.ofList (newer ++ [v])
  victim : IsPage v
  victim_present : PagePresent (c.mm.pgd v.toNat)
  frame : pagingFpn (c.mm.pgd v.toNat) = f
  frame_inside : (c.dev .mram).FrameInside f

/-- The state after the exchange, but for the entry of page `v`. -/
structure Exchanged (c c' : Caller) (pgn t v f s : ℤ) (newer rest : List ℤ) : Prop where
  /-- Page `pgn` is in RAM, and page `v` in swap. -/
  ram_frame : ∀ k : ℕ, k < pagingPagesz → (c'.dev .mram).storage (f * pagingPagesz + k) =
    (c.dev .activeMswp).storage (t * pagingPagesz + k)
  swap_frame : ∀ k : ℕ, k < pagingPagesz → (c'.dev .activeMswp).storage (s * pagingPagesz + k) =
    (c.dev .mram).storage (f * pagingPagesz + k)
  /-- No other byte and no other entry has changed. -/
  ram_other : ∀ a, (∀ k : ℕ, k < pagingPagesz → a ≠ f * pagingPagesz + k) →
    (c'.dev .mram).storage a = (c.dev .mram).storage a
  swap_other : ∀ a, (∀ k : ℕ, k < pagingPagesz → a ≠ s * pagingPagesz + k) →
    (c'.dev .activeMswp).storage a = (c.dev .activeMswp).storage a
  pgd_other : ∀ q, q ≠ v.toNat → q ≠ pgn.toNat → c'.mm.pgd q = c.mm.pgd q
  free_eq : (c'.dev .activeMswp).freeFpList = Chain.ofList (t :: rest)
  fifo_eq : c'.mm.fifoPgn = Chain.ofList (pgn :: newer)

/-- The state that the exchange leaves. -/
def exchanged (c : Caller) (pgn t v f s : ℤ) (newer rest : List ℤ) : Caller :=
  let swap := (c.dev .activeMswp).copiedFrom (c.dev .mram) s f pagingPagesz
  { mm := { c.mm with
      pgd := Function.update c.mm.pgd v.toNat (pteSetSwap (c.mm.pgd v.toNat) 0 s)
      fifoPgn := Chain.ofList (pgn :: newer) }
    dev
      | .mram => (c.dev .mram).copiedFrom swap f t pagingPagesz
      | .activeMswp => { swap with freeFpList := Chain.ofList (t :: rest) } }

namespace Faulting

variable {c : Caller} {pgn t v f s : ℤ} {newer rest : List ℤ}

/-- The devices after `MEMPHY_get_freefp`. -/
def taken (c : Caller) (rest : List ℤ) : Dev → Memphy :=
  Function.update c.dev .activeMswp
    { c.dev .activeMswp with freeFpList := Chain.ofList rest }

/-- The devices after the victim was copied to swap. -/
def sent (c : Caller) (f s : ℤ) (rest : List ℤ) : Dev → Memphy
  | .mram => c.dev .mram
  | .activeMswp => { (c.dev .activeMswp).copiedFrom (c.dev .mram) s f pagingPagesz with
      freeFpList := Chain.ofList rest }

/-- The devices after the page asked for was copied to RAM. -/
def received (c : Caller) (t f s : ℤ) (rest : List ℤ) : Dev → Memphy
  | .mram => (c.dev .mram).copiedFrom (sent c f s rest .activeMswp) f t pagingPagesz
  | .activeMswp => sent c f s rest .activeMswp

/-- **First the victim goes out.** -/
theorem sent_eq (h : Faulting c pgn t v f s newer rest) :
    swapCpPage (taken c rest) .mram f .activeMswp s = some (sent c f s rest) := by
  have hne : Dev.mram ≠ Dev.activeMswp := by decide
  have hram : taken c rest .mram = c.dev .mram := Function.update_of_ne hne _ _
  have hswap : taken c rest .activeMswp =
      { c.dev .activeMswp with freeFpList := Chain.ofList rest } := Function.update_self _ _ _
  rw [swapCpPage_eq (by rw [hram]; exact h.ram) (by rw [hswap]; exact ⟨h.swap.1, h.swap.2⟩)
    (by rw [hram]; exact h.frame_inside)
    (by rw [hswap]; exact h.free_inside s List.mem_cons_self)]
  congr 1
  ext d : 1
  cases d with
  | mram => rw [Function.update_of_ne hne, hram, sent]
  | activeMswp =>
      rw [Function.update_self, hswap, hram]
      rfl

/-- **Then the page asked for comes in.** -/
theorem received_eq (h : Faulting c pgn t v f s newer rest) :
    swapCpPage (sent c f s rest) .activeMswp t .mram f = some (received c t f s rest) := by
  have hne : Dev.activeMswp ≠ Dev.mram := by decide
  rw [swapCpPage_eq (show (sent c f s rest .activeMswp).Random from ⟨h.swap.1, h.swap.2⟩)
    (show (sent c f s rest .mram).Random from h.ram) h.target_inside h.frame_inside]
  congr 1
  ext d : 1
  cases d with
  | mram =>
      rw [Function.update_self]
      rfl
  | activeMswp =>
      rw [Function.update_of_ne hne]
      rfl

/-- **The exchange** of the two pages. -/
theorem exchange_eq (h : Faulting c pgn t v f s newer rest) :
    exchange { mm := { c.mm with fifoPgn := Chain.ofList newer }, dev := taken c rest }
      pgn (c.mm.pgd pgn.toNat) v f s =
    some (pteSetFpn (c.mm.pgd pgn.toNat) f, exchanged c pgn t v f s newer rest) := by
  have hfreed : Function.update (received c t f s rest) .activeMswp
      ((received c t f s rest .activeMswp).putFreefp t) =
      (exchanged c pgn t v f s newer rest).dev := by
    ext d : 1
    cases d with
    | mram =>
        rw [Function.update_of_ne (show Dev.mram ≠ Dev.activeMswp by decide)]
        rfl
    | activeMswp =>
        rw [Function.update_self]
        rfl
  simp only [exchange, h.target, h.sent_eq, Option.bind_some, h.received_eq, Option.map_some,
    hfreed]
  rfl

/-- The oldest page is unlinked. -/
theorem findVictimPage_eq (h : Faulting c pgn t v f s newer rest) :
    findVictimPage c.mm = some (.ok v, { c.mm with fifoPgn := Chain.ofList newer }) := by
  apply findVictimPage_of_popLast
  rw [h.fifo_eq]
  exact Chain.popLast_ofList newer v

/-- **The page fault succeeds**, and returns the frame of the evicted page. -/
theorem pgGetpage_eq (h : Faulting c pgn t v f s newer rest) :
    pgGetpage c pgn = some (.ok f, exchanged c pgn t v f s newer rest) := by
  have hget := Memphy.getFreefp_cons h.free_eq
  have hfault : pageFault c pgn (c.mm.pgd pgn.toNat) =
      some (.ok (pteSetFpn (c.mm.pgd pgn.toNat) f), exchanged c pgn t v f s newer rest) := by
    simp only [pageFault, h.findVictimPage_eq, Caller.mm_setMm, Caller.dev_setMm,
      if_neg (not_not.mpr h.victim), if_neg (not_not.mpr h.victim_present), hget, h.frame]
    have hex := h.exchange_eq
    simp only [taken] at hex
    simp only [Caller.setMm, Caller.setDev, hex, Option.map_some]
  have hframe : pagingFpn (pteSetFpn (c.mm.pgd pgn.toNat) f) = f := by
    rw [pagingFpn_pteSetFpn, ← h.frame]
    exact Int.emod_eq_of_lt (pagingFpn_nonneg _) (pagingFpn_lt _)
  rw [pgGetpage_of_absent h.page h.absent, hfault, Option.map_some, Ret.map, hframe]

/-- **The exchange moves the right pages.** -/
theorem exchanged_spec (h : Faulting c pgn t v f s newer rest) :
    Exchanged c (exchanged c pgn t v f s newer rest) pgn t v f s newer rest := by
  have hts : t ≠ s := by
    rintro rfl
    exact h.target_used List.mem_cons_self
  have hout : ∀ {a fpn : ℤ}, (∀ k : ℕ, k < pagingPagesz → a ≠ fpn * pagingPagesz + k) →
      a < fpn * pagingPagesz ∨ fpn * pagingPagesz + pagingPagesz ≤ a := by
    intro a fpn hne
    by_contra hin
    push Not at hin
    exact hne (a - fpn * pagingPagesz).toNat (by omega) (by omega)
  constructor
  · intro k hk
    simp only [exchanged, Memphy.copiedFrom, Copy.copied_inside _ _ _ _ hk]
    -- The victim was copied to another frame than the one read here.
    apply Copy.copied_outside
    simp only [pagingPagesz] at hk ⊢
    omega
  · intro k hk
    simp only [exchanged, Memphy.copiedFrom, Copy.copied_inside _ _ _ _ hk]
  · intro a ha
    simp only [exchanged, Memphy.copiedFrom]
    exact Copy.copied_outside _ _ _ (hout ha)
  · intro a ha
    simp only [exchanged, Memphy.copiedFrom]
    exact Copy.copied_outside _ _ _ (hout ha)
  · intro q hq _
    exact Function.update_of_ne hq _ _
  · rfl
  · rfl

end Faulting

/-- **The page fault exchanges the right pages**: it returns 0 with the frame of the oldest
page, whose contents are in the first free frame of swap and whose entry has as many
bits of that frame's number as the field holds. -/
theorem page_fault_exchanges {c : Caller} {pgn t v f s : ℤ} {newer rest : List ℤ}
    (h : Faulting c pgn t v f s newer rest) :
    ∃ c', pgGetpage c pgn = some (.ok f, c') ∧ Exchanged c c' pgn t v f s newer rest ∧
      pagingPteSwp (c'.mm.pgd v.toNat) = s % 2 ^ 21 := by
  refine ⟨_, h.pgGetpage_eq, h.exchanged_spec, ?_⟩
  simp only [exchanged, Function.update_self, pagingPteSwp_pteSetSwap]

/-- Page 0 in RAM frame 1, page 1 in RAM frame 0, page 2 in swap frame 1, on a swap device
of `maxsz` bytes with one free frame. -/
def swappedOut (maxsz s : ℤ) : Caller where
  mm := { initMm .zeroed with
    pgd := fun q =>
      if q = 0 then pteSetFpn 0 1 else if q = 1 then pteSetFpn 0 0 else if q = 2 then 0x40000020
      else 0
    fifoPgn := Chain.ofList [1, 0] }
  dev
    | .mram => ⟨fun _ => 0, 512, true, 0, .null⟩
    | .activeMswp => ⟨fun _ => 0, maxsz, true, 0, Chain.ofList [s]⟩

theorem faulting_swappedOut {maxsz s : ℤ} (hs : 1 < s) (hin : (s + 1) * 256 ≤ maxsz)
    (hmax : maxsz < 2 ^ 31) : Faulting (swappedOut maxsz s) 2 1 0 1 s [1] [] where
  ram := ⟨rfl, show (512 : ℤ) < 2 ^ 31 by decide⟩
  swap := ⟨rfl, hmax⟩
  page := by decide
  absent := show ¬ PagePresent 0x40000020 by decide
  target := show pagingPteSwp 0x40000020 = 1 by decide
  target_inside := ⟨by decide, by simp only [pagingPagesz, swappedOut]; omega⟩
  target_used := by
    rw [List.mem_singleton]
    omega
  free_eq := rfl
  free_inside := by
    intro fpn hfpn
    obtain rfl := List.mem_singleton.mp hfpn
    exact ⟨by omega, hin⟩
  free_nodup := List.nodup_singleton s
  fifo_eq := rfl
  victim := by decide
  victim_present := show PagePresent (pteSetFpn 0 1) by decide
  frame := show pagingFpn (pteSetFpn 0 1) = 1 by decide
  frame_inside := ⟨by decide, show (1 + 1) * (256 : ℤ) ≤ 512 by decide⟩

theorem page_fault_exchanges_swappedOut :
    ∃ c', pgGetpage (swappedOut 768 2) 2 = some (.ok 1, c') ∧
      Exchanged (swappedOut 768 2) c' 2 1 0 1 2 [1] [] ∧
      pagingPteSwp (c'.mm.pgd 0) = 2 % 2 ^ 21 :=
  page_fault_exchanges (faulting_swappedOut (by decide) (by decide) (by decide))

/-- On a swap device of more than 512 MiB the number of the swap frame is lost. -/
theorem swap_offset_truncated :
    ∃ c, Faulting c 2 1 0 1 (2 ^ 21) [1] [] ∧
      ∃ c', pgGetpage c 2 = some (.ok 1, c') ∧ pagingPteSwp (c'.mm.pgd 0) ≠ 2 ^ 21 := by
  have h : Faulting (swappedOut (2 ^ 29 + 256) (2 ^ 21)) 2 1 0 1 (2 ^ 21) [1] [] :=
    faulting_swappedOut (by decide) (by decide) (by decide)
  refine ⟨_, h, _, h.pgGetpage_eq, ?_⟩
  have hpte := pagingPteSwp_pteSetSwap ((swappedOut (2 ^ 29 + 256) (2 ^ 21)).mm.pgd 0) 0 (2 ^ 21)
  simp only [exchanged, Int.toNat_zero, Function.update_self, hpte]
  decide

end Libmem
end SimOs
