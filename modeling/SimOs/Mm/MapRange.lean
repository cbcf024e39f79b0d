import SimOs.Mm.Frames
import SimOs.Mm.Mapping

/-!
# What a mapped range looks like

`vmap_page_range` walks two things at once, the list of frames and the pages of the
range, and stops at the end of the first of them.  So it fills as many entries as there
are frames and pages for, in order, and enlists their pages in order; it reports the
whole range if the frames were enough, and an empty one otherwise.

An entry has 13 bits for the frame.  They number the frames of a RAM of 2 MiB,
`PAGING_MEMRAMSZ`.  A larger RAM has frames of which only the low bits are kept, so two
pages may be translated to one frame.

## Main definitions

* `Filled`: an entry that holds a frame and nothing else.
* `vmapPageRange_maps`: the entries, the FIFO list and the region after a call.
* `frames_decoded`: pages mapped to frames of a RAM of at most 2^13 frames keep them.
-/

namespace SimOs.Libmem

/-- The entry is present on frame `fpn`, not swapped, and its other bits are clear. -/
structure Filled (pte : BitVec 32) (fpn : ℤ) : Prop where
  present : PagePresent pte
  notSwapped : ¬ PageSwapped pte
  clear : ∀ i, 12 < i → i < 30 → pte.getLsbD i = false
  frame : pagingFpn pte = fpn

/-- `pte_set_fpn` on a cleared entry. -/
theorem filled_pteSetFpn {fpn : ℤ} (h0 : 0 ≤ fpn) (hlt : fpn < 2 ^ 13) :
    Filled (pteSetFpn 0 fpn) fpn where
  present := pagePresent_pteSetFpn 0 fpn
  notSwapped := not_pageSwapped_pteSetFpn 0 fpn
  clear i hlo hhi := by
    rw [getLsbD_pteSetFpn 0 fpn (by omega), if_neg (by omega), if_neg (by omega),
      if_neg (by omega)]
    exact BitVec.getLsbD_zero
  frame := (pagingFpn_pteSetFpn 0 fpn).trans (Int.emod_eq_of_lt h0 hlt)

/-! ## The entries and the list -/

/-- The entry of the `i`-th page. -/
theorem pgd_mapPages (mm : Mm) (pgn : ℕ) {fpns : List ℤ} {i : ℕ} {fpn : ℤ}
    (hi : fpns[i]? = some fpn) : (mapPages mm pgn fpns).pgd (pgn + i) = pteSetFpn 0 fpn := by
  induction fpns generalizing mm pgn i with
  | nil => simp at hi
  | cons f fpns ih =>
      rw [mapPages]
      cases i with
      | zero =>
          simp only [List.getElem?_cons_zero, Option.some.injEq] at hi
          rw [Nat.add_zero, pgd_mapPages_of_out (by omega), hi]
          exact Function.update_self ..
      | succ i =>
          rw [List.getElem?_cons_succ] at hi
          have hpage : pgn + (i + 1) = pgn + 1 + i := by omega
          rw [hpage]
          exact ih _ _ hi

/-- The pages `pgn` to `pgn + n - 1`, from the last to the first. -/
def newestFirst (pgn n : ℕ) : List ℤ := ((List.range n).map fun i : ℕ => (pgn + i : ℤ)).reverse

theorem newestFirst_succ (pgn n : ℕ) :
    newestFirst pgn (n + 1) = newestFirst (pgn + 1) n ++ [(pgn : ℤ)] := by
  simp only [newestFirst, List.range_succ_eq_map, List.map_cons, List.reverse_cons, List.map_map,
    Nat.cast_zero, add_zero]
  congr 3
  ext i
  simp only [Function.comp_apply, Nat.cast_succ]
  omega

/-- Every page is enlisted in front of the ones before it. -/
theorem fifoPgn_mapPages (mm : Mm) (pgn : ℕ) (fpns : List ℤ) :
    (mapPages mm pgn fpns).fifoPgn =
      (Chain.ofList (newestFirst pgn fpns.length)).append mm.fifoPgn := by
  induction fpns generalizing mm pgn with
  | nil => rfl
  | cons f fpns ih =>
      rw [mapPages, ih, List.length_cons, newestFirst_succ, Chain.append_ofList_concat]
      rfl

/-- The areas and the regions are not touched. -/
theorem mapPages_frame (mm : Mm) (pgn : ℕ) (fpns : List ℤ) :
    (mapPages mm pgn fpns).mmap = mm.mmap ∧ (mapPages mm pgn fpns).symrgtbl = mm.symrgtbl := by
  induction fpns generalizing mm pgn with
  | nil => exact ⟨rfl, rfl⟩
  | cons f fpns ih => exact ih _ _

/-- The reported region, below the end of the address space. -/
theorem mappedRg_eq {addr pgnum : ℤ} (fpns : List ℤ) (h0 : 0 ≤ addr) (hpos : 0 < pgnum)
    (hspace : addr + pgnum * 256 ≤ 2 ^ 22) :
    mappedRg addr pgnum fpns =
      ⟨addr, if pgnum ≤ fpns.length then addr + pgnum * 256 else addr⟩ := by
  have hpage : (pagingPagesz : ℤ) = 256 := rfl
  have hlen : pgnum.toNat ≤ fpns.length ↔ pgnum ≤ fpns.length := by omega
  have hstart : CInt.uint 64 addr = addr := CInt.uint_eq h0 (by omega)
  have hend : rangeEnd addr pgnum = addr + pgnum * 256 := by
    have hbytes : CInt.sint 32 (pgnum * 256) = pgnum * 256 := CInt.sint_eq (by omega) (by omega)
    rw [rangeEnd, hpage, hbytes, CInt.sint_eq (by omega) (by omega)]
    exact CInt.uint_eq (by omega) (by omega)
  simp only [mappedRg, hlen, hstart, hend]

/-- The pages of a range within the address space exist. -/
theorem range_room {addr pgnum : ℤ} (fpns : List ℤ) (h0 : 0 ≤ addr) (hpos : 0 < pgnum)
    (hspace : addr + pgnum * 256 ≤ 2 ^ 22) :
    pagingPgn addr + mapCount pgnum fpns ≤ pagingMaxPgn := by
  have hpgn := pagingPgn_eq h0 (by omega)
  have hmax : pagingMaxPgn = 16384 := rfl
  rw [hmax, mapCount]
  omega

/-- **What is given is mapped**: a call of `vmap_page_range` within the address space fills the
entries of the first pages with the frames, as far as both go, changes no other entry, enlists
these pages in order, and reports the range if all its pages were mapped and an empty one
otherwise. -/
theorem vmapPageRange_maps (mm : Mm) {addr pgnum : ℤ} {fpns : List ℤ} (h0 : 0 ≤ addr)
    (hpos : 0 < pgnum) (hspace : addr + pgnum * 256 ≤ 2 ^ 22)
    (hfpns : ∀ fpn ∈ fpns, 0 ≤ fpn ∧ fpn < 2 ^ 13) :
    ∃ mm', vmapPageRange mm addr pgnum (Chain.ofList fpns) =
        some (.ok ⟨addr, if pgnum ≤ fpns.length then addr + pgnum * 256 else addr⟩, mm') ∧
      (∀ i < mapCount pgnum fpns, ∃ fpn, fpns[i]? = some fpn ∧
        Filled (mm'.pgd (pagingPgn addr + i)) fpn) ∧
      (∀ q, ¬ (pagingPgn addr ≤ q ∧ q < pagingPgn addr + mapCount pgnum fpns) →
        mm'.pgd q = mm.pgd q) ∧
      mm'.fifoPgn =
        (Chain.ofList (newestFirst (pagingPgn addr) (mapCount pgnum fpns))).append mm.fifoPgn ∧
      mm'.mmap = mm.mmap ∧ mm'.symrgtbl = mm.symrgtbl := by
  have hroom := range_room fpns h0 hpos hspace
  have hcount : (fpns.take pgnum.toNat).length = mapCount pgnum fpns := List.length_take
  refine ⟨mapPages mm (pagingPgn addr) (fpns.take pgnum.toNat), ?_, ?_, ?_, ?_,
    mapPages_frame _ _ _⟩
  · rw [vmapPageRange_eq mm hpos hroom, mappedRg_eq fpns h0 hpos hspace]
  · intro i hi
    have hlt : i < fpns.length := Nat.lt_of_lt_of_le hi (Nat.min_le_right _ _)
    have hget : (fpns.take pgnum.toNat)[i]? = some fpns[i] := by
      rw [List.getElem?_take_of_lt (Nat.lt_of_lt_of_le hi (Nat.min_le_left _ _))]
      exact List.getElem?_eq_getElem hlt
    have hfit := hfpns fpns[i] (List.getElem_mem hlt)
    refine ⟨fpns[i], List.getElem?_eq_getElem hlt, ?_⟩
    rw [pgd_mapPages mm _ hget]
    exact filled_pteSetFpn hfit.1 hfit.2
  · intro q hq
    exact pgd_mapPages_of_out (by rwa [hcount])
  · rw [fifoPgn_mapPages, hcount]

theorem vmapPageRange_maps_two :
    ∃ mm', vmapPageRange (initMm .zeroed) 256 2 (Chain.ofList [5, 3, 7]) =
        some (.ok ⟨256, 768⟩, mm') ∧
      (∀ i < 2, ∃ fpn, ([5, 3, 7] : List ℤ)[i]? = some fpn ∧ Filled (mm'.pgd (1 + i)) fpn) ∧
      mm'.fifoPgn = Chain.ofList [2, 1] := by
  obtain ⟨mm', hcall, hfilled, -, hfifo, -⟩ :=
    vmapPageRange_maps (initMm .zeroed) (show (0 : ℤ) ≤ 256 by decide)
      (show (0 : ℤ) < 2 by decide) (by decide)
      (show ∀ fpn ∈ ([5, 3, 7] : List ℤ), 0 ≤ fpn ∧ fpn < 2 ^ 13 by decide)
  exact ⟨mm', hcall, hfilled, hfifo⟩

/-! ## The frames of a RAM -/

/-- What an entry keeps of the frame it was given. -/
theorem pagingFpn_mapPages (mm : Mm) (pgn : ℕ) {fpns : List ℤ} {i : ℕ} {fpn : ℤ}
    (hi : fpns[i]? = some fpn) :
    pagingFpn ((mapPages mm pgn fpns).pgd (pgn + i)) = fpn % 2 ^ 13 := by
  rw [pgd_mapPages mm pgn hi, pagingFpn_pteSetFpn]

/-- **Frames are found again**: a RAM of at most 2^13 frames, from which some frames were
obtained.  If a call of `vmap_page_range` maps them, then the entry of each page decodes to
the frame that was given for it, and no two of the pages are translated to one frame. -/
theorem frames_decoded {fpNext : Chain ℤ} {old : Memphy} {maxSize : ℤ} {randomflg : Bool}
    (h0 : 0 ≤ maxSize) (hlt : maxSize < 2 ^ 21 + 256)
    (hold : maxSize < 256 → old.freeFpList = .null) (hnext : maxSize < 512 → fpNext = .null)
    {calls : List Memphy.FrameCall} {c : Memphy.Custody}
    (hrun : (Memphy.custodySystem (maxSize / 256).toNat).run
      ⟨Memphy.initMemphy fpNext old maxSize randomflg, 0⟩ calls = some c)
    {fpns : List ℤ} (hnodup : fpns.Nodup) (hgot : ∀ fpn ∈ fpns, fpn ∈ c.outstanding) (mm : Mm)
    {addr pgnum : ℤ} (hpos : 0 < pgnum)
    (hroom : pagingPgn addr + mapCount pgnum fpns ≤ pagingMaxPgn) :
    ∃ rg mm', vmapPageRange mm addr pgnum (Chain.ofList fpns) = some (.ok rg, mm') ∧
      (∀ i < mapCount pgnum fpns,
        fpns[i]? = some (pagingFpn (mm'.pgd (pagingPgn addr + i)))) ∧
      ∀ i < mapCount pgnum fpns, ∀ j < mapCount pgnum fpns,
        pagingFpn (mm'.pgd (pagingPgn addr + i)) = pagingFpn (mm'.pgd (pagingPgn addr + j)) →
          i = j := by
  have hreach : (Memphy.custodySystem (maxSize / 256).toNat).Reachable c :=
    ⟨_, calls, ⟨Memphy.freeFpList_initMemphy randomflg h0 hold hnext, rfl⟩, hrun⟩
  obtain ⟨free, -, hsum⟩ := Memphy.reachable_partitioned hreach
  have hframe : ∀ fpn ∈ fpns, 0 ≤ fpn ∧ fpn < 2 ^ 13 := by
    intro fpn hfpn
    have hall : fpn ∈ (Memphy.allFrames (maxSize / 256).toNat : Multiset ℤ) := by
      rw [← hsum]
      exact Multiset.mem_add.mpr (Or.inr (hgot fpn hfpn))
    have hbound := Memphy.mem_allFrames.mp (Multiset.mem_coe.mp hall)
    exact ⟨hbound.1, by omega⟩
  refine ⟨_, mapPages mm (pagingPgn addr) (fpns.take pgnum.toNat), vmapPageRange_eq mm hpos hroom,
    ?_⟩
  have hdecode : ∀ i < mapCount pgnum fpns, fpns[i]? =
      some (pagingFpn ((mapPages mm (pagingPgn addr) (fpns.take pgnum.toNat)).pgd
        (pagingPgn addr + i))) := by
    intro i hi
    obtain ⟨htake, hlen⟩ := Nat.lt_min.mp hi
    have hget := List.getElem?_eq_getElem hlen
    have hfit := hframe fpns[i] (List.getElem_mem hlen)
    rw [pagingFpn_mapPages mm _ ((List.getElem?_take_of_lt htake).trans hget),
      Int.emod_eq_of_lt hfit.1 hfit.2, hget]
  refine ⟨hdecode, ?_⟩
  intro i hi j hj heq
  have hlen : i < fpns.length := (Nat.lt_min.mp hi).2
  exact (List.getElem?_inj hlen hnodup).mp (by rw [hdecode i hi, hdecode j hj, heq])

/-- A structure that `init_memphy` has not filled yet, over cleared memory. -/
def blankMemphy : Memphy := ⟨fun _ => 0, 0, false, 0, .null⟩

theorem frames_decoded_three :
    ∃ c, (Memphy.custodySystem 3).run ⟨Memphy.initMemphy .null blankMemphy 768 true, 0⟩
        [.getFreefp, .getFreefp, .putFreefp 0, .getFreefp] = some c ∧
      ∃ rg mm', vmapPageRange (initMm .zeroed) 256 2 (Chain.ofList [1, 0]) = some (.ok rg, mm') ∧
        ∀ i < 2, ([1, 0] : List ℤ)[i]? = some (pagingFpn (mm'.pgd (1 + i))) := by
  have hrun : ((Memphy.custodySystem 3).run ⟨Memphy.initMemphy .null blankMemphy 768 true, 0⟩
      [.getFreefp, .getFreefp, .putFreefp 0, .getFreefp]).any
        fun c => decide (∀ fpn ∈ ([1, 0] : List ℤ), fpn ∈ c.outstanding) := by
    decide +kernel
  obtain ⟨c, hc, hgot⟩ := (Option.any_eq_true _ _).mp hrun
  obtain ⟨rg, mm', hcall, hdecode, -⟩ := frames_decoded
    (show (0 : ℤ) ≤ 768 by decide) (by decide) (by decide) (by decide) hc (by decide)
    (of_decide_eq_true hgot) (initMm .zeroed) (show (0 : ℤ) < 2 by decide)
    (show pagingPgn 256 + mapCount 2 [1, 0] ≤ pagingMaxPgn by decide)
  exact ⟨c, hc, rg, mm', hcall, hdecode⟩

/-- **A larger RAM has frames that are not found again**: frame 2^13 of a RAM of 2 MiB and one
page can be obtained and mapped, and its entry decodes to frame 0, as that of the page
before. -/
theorem frame_truncated :
    ∃ c, (Memphy.custodySystem 8193).run
        ⟨Memphy.initMemphy .null blankMemphy (2 ^ 21 + 256) true, 0⟩
        (List.replicate 8193 .getFreefp) = some c ∧
      0 ∈ c.outstanding ∧ 8192 ∈ c.outstanding ∧
      ∃ rg mm', vmapPageRange (initMm .zeroed) 0 2 (Chain.ofList [0, 8192]) =
          some (.ok rg, mm') ∧
        pagingFpn (mm'.pgd 1) ≠ 8192 ∧ pagingFpn (mm'.pgd 1) = pagingFpn (mm'.pgd 0) := by
  have hlist : (Memphy.initMemphy .null blankMemphy (2 ^ 21 + 256) true).freeFpList =
      Chain.ofList (Memphy.allFrames 8193 ++ []) := by
    rw [List.append_nil]
    exact Memphy.freeFpList_initMemphy true (by decide) (fun _ => rfl) fun _ => rfl
  have hlen := Memphy.length_allFrames 8193
  have hrun := Memphy.run_getFreefp 8193 (Memphy.allFrames 8193) 0 hlist
  rw [hlen] at hrun
  refine ⟨_, hrun, ?_, ?_, _, mapPages (initMm .zeroed) 0 [0, 8192],
    vmapPageRange_eq (initMm .zeroed) (by decide) (by decide), ?_⟩
  · rw [add_zero]
    exact Multiset.mem_coe.mpr (Memphy.mem_allFrames.mpr (by decide))
  · rw [add_zero]
    exact Multiset.mem_coe.mpr (Memphy.mem_allFrames.mpr (by decide))
  · have hzero := pagingFpn_mapPages (initMm .zeroed) 0
      (show ([0, 8192] : List ℤ)[0]? = some 0 from rfl)
    have hlast := pagingFpn_mapPages (initMm .zeroed) 0
      (show ([0, 8192] : List ℤ)[1]? = some 8192 from rfl)
    rw [Nat.zero_add] at hzero hlast
    rw [hzero, hlast]
    exact ⟨by decide, by decide⟩

end SimOs.Libmem
