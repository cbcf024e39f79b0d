import SimOs.Mm.Libmem

/-!
# Page tables with private frames

`vmap_page_range` maps the frames it is given to consecutive pages
(`vmapPageRange_ofList`).  If the frames are new, every mapped page has a frame of its
own: `Backed`.  Then the translation of addresses to cells of RAM is injective, across
pages and across processes that share the RAM.

The page tables are indexed by processes, of which there may be one or many.

## Main definitions

* `mapPages`: the effect of `vmap_page_range`.
* `Backed`: the mapped pages are present on pairwise distinct frames.
* `cell`, `Backed.cell_injective`: the translation, and that it is injective.
-/

namespace SimOs.Libmem

universe u

/-- Map the frames to consecutive pages from `pgn` on. -/
def mapPages : Mm → ℕ → List ℤ → Mm
  | mm, _, [] => mm
  | mm, pgn, fpn :: fpns => mapPages (mapPage mm pgn fpn) (pgn + 1) fpns

/-- The end that `vmap_page_range` gives the region when it has mapped all `pgnum` pages. -/
def rangeEnd (addr pgnum : ℤ) : ℤ :=
  CInt.uint 64 (CInt.sint 32 (addr + CInt.sint 32 (pgnum * pagingPagesz)))

/-- The loop of `vmap_page_range` maps frames until they or the pages run out, and moves the
end of the region only in the second case. -/
theorem vmapLoop_ofList (addr pgnum : ℤ) (pgn : ℕ) (retRg : VmRg) (mm : Mm) (pgit : ℕ)
    (fpns : List ℤ) (hlt : (pgit : ℤ) < pgnum)
    (hroom : pgn + pgit + min (pgnum - pgit).toNat fpns.length ≤ pagingMaxPgn) :
    vmapLoop addr pgnum pgn retRg mm pgit (Chain.ofList fpns) =
      some (if (pgnum - pgit).toNat ≤ fpns.length then
          { retRg with rgEnd := rangeEnd addr pgnum } else retRg,
        mapPages mm (pgn + pgit) (fpns.take (pgnum - pgit).toNat)) := by
  induction fpns generalizing mm pgit with
  | nil =>
      have hmore : ¬ (pgnum - pgit).toNat ≤ ([] : List ℤ).length := by
        rw [List.length_nil]
        omega
      rw [if_neg hmore, List.take_nil]
      rfl
  | cons fpn fpns ih =>
      have hleft : (pgnum - pgit).toNat = (pgnum - (pgit + 1 : ℕ)).toNat + 1 := by omega
      rw [hleft, List.length_cons] at hroom
      rw [hleft, List.take_succ_cons, mapPages, Chain.ofList_cons, vmapLoop,
        if_pos (by omega), List.length_cons]
      simp only [Nat.add_le_add_iff_right]
      by_cases hlast : (pgit : ℤ) = pgnum - 1
      · have hnone : (pgnum - (pgit + 1 : ℕ)).toNat = 0 := by omega
        rw [hnone, List.take_zero, mapPages, if_pos (Nat.zero_le _)]
        simp only [if_pos hlast]
        rfl
      · simp only [if_neg hlast]
        exact ih _ _ (by omega) (by omega)

/-- The pages that a call of `vmap_page_range` maps. -/
def mapCount (pgnum : ℤ) (fpns : List ℤ) : ℕ := min pgnum.toNat fpns.length

/-- The region that a call of `vmap_page_range` reports. -/
def mappedRg (addr pgnum : ℤ) (fpns : List ℤ) : VmRg where
  rgStart := CInt.uint 64 addr
  rgEnd := if pgnum.toNat ≤ fpns.length then rangeEnd addr pgnum else CInt.uint 64 addr

/-- **What `vmap_page_range` does** with a null-terminated list of frames, if the pages are
there. -/
theorem vmapPageRange_eq (mm : Mm) {addr pgnum : ℤ} {fpns : List ℤ} (hpos : 0 < pgnum)
    (hroom : pagingPgn addr + mapCount pgnum fpns ≤ pagingMaxPgn) :
    vmapPageRange mm addr pgnum (Chain.ofList fpns) =
      some (.ok (mappedRg addr pgnum fpns),
        mapPages mm (pagingPgn addr) (fpns.take pgnum.toNat)) := by
  have hloop := vmapLoop_ofList addr pgnum (pagingPgn addr)
    ⟨CInt.uint 64 addr, CInt.uint 64 addr⟩ mm 0 fpns (by omega) (by simpa [mapCount] using hroom)
  simp only [Nat.cast_zero, sub_zero, Nat.add_zero] at hloop
  rw [vmapPageRange, if_neg (by omega)]
  simp only [hloop, Option.map_some, mappedRg]
  split <;> rfl

/-- Its effect, whatever it reports. -/
theorem vmapPageRange_ofList (mm : Mm) {addr pgnum : ℤ} {fpns : List ℤ}
    (hroom : pagingPgn addr + mapCount pgnum fpns ≤ pagingMaxPgn) :
    ∃ r, vmapPageRange mm addr pgnum (Chain.ofList fpns) =
      some (r, mapPages mm (pagingPgn addr) (fpns.take pgnum.toNat)) := by
  by_cases hpos : 0 < pgnum
  · exact ⟨_, vmapPageRange_eq mm hpos hroom⟩
  · have hzero : pgnum.toNat = 0 := by omega
    rw [vmapPageRange, if_pos (by omega), hzero, List.take_zero, mapPages]
    exact ⟨.err, rfl⟩

section Tables
variable {ι : Type u} [DecidableEq ι]

/-- The pages `P` are present, not swapped, and on pairwise distinct frames out of
`used`. -/
structure Backed (pgd : ι → ℕ → BitVec 32) (P : ι → ℕ → Prop) (used : List ℤ) : Prop where
  present : ∀ i q, P i q → PagePresent (pgd i q)
  notSwapped : ∀ i q, P i q → ¬ PageSwapped (pgd i q)
  frame : ∀ i q, P i q → pagingFpn (pgd i q) ∈ used
  injective : ∀ i q j r, P i q → P j r → pagingFpn (pgd i q) = pagingFpn (pgd j r) →
    i = j ∧ q = r

omit [DecidableEq ι] in
/-- Fewer pages, and more frames in use. -/
theorem Backed.mono {pgd : ι → ℕ → BitVec 32} {P Q : ι → ℕ → Prop} {used used' : List ℤ}
    (h : Backed pgd P used) (hPQ : ∀ i q, Q i q → P i q) (hused : ∀ f ∈ used, f ∈ used') :
    Backed pgd Q used' where
  present i q hq := h.present i q (hPQ i q hq)
  notSwapped i q hq := h.notSwapped i q (hPQ i q hq)
  frame i q hq := hused _ (h.frame i q (hPQ i q hq))
  injective i q j r hq hr := h.injective i q j r (hPQ i q hq) (hPQ j r hr)

omit [DecidableEq ι] in
/-- Entries of other pages do not matter. -/
theorem Backed.agree {pgd pgd' : ι → ℕ → BitVec 32} {P Q : ι → ℕ → Prop} {used : List ℤ}
    (h : Backed pgd P used) (hagree : ∀ i q, Q i q → P i q ∧ pgd' i q = pgd i q) :
    Backed pgd' Q used where
  present i q hq := (hagree i q hq).2 ▸ h.present i q (hagree i q hq).1
  notSwapped i q hq := (hagree i q hq).2 ▸ h.notSwapped i q (hagree i q hq).1
  frame i q hq := (hagree i q hq).2 ▸ h.frame i q (hagree i q hq).1
  injective i q j r hq hr heq := by
    obtain ⟨hPq, hsame⟩ := hagree i q hq
    obtain ⟨hPr, hsame'⟩ := hagree j r hr
    rw [hsame, hsame'] at heq
    exact h.injective i q j r hPq hPr heq

/-- Set one entry of the table of one process. -/
def setPte (pgd : ι → ℕ → BitVec 32) (i : ι) (q : ℕ) (pte : BitVec 32) : ι → ℕ → BitVec 32 :=
  Function.update pgd i (Function.update (pgd i) q pte)

@[simp] theorem setPte_self (pgd : ι → ℕ → BitVec 32) (i : ι) (q : ℕ) (pte : BitVec 32) :
    setPte pgd i q pte i q = pte := by simp [setPte]

theorem setPte_of_ne (pgd : ι → ℕ → BitVec 32) {i j : ι} {q r : ℕ} (pte : BitVec 32)
    (h : ¬ (j = i ∧ r = q)) : setPte pgd i q pte j r = pgd j r := by
  by_cases hj : j = i
  · subst hj
    have hr : r ≠ q := fun hr => h ⟨rfl, hr⟩
    simp [setPte, hr]
  · simp [setPte, hj]

/-- Mapping one page to a frame whose number is new as far as the entry keeps it. -/
theorem Backed.mapPage {pgd : ι → ℕ → BitVec 32} {P : ι → ℕ → Prop} {used : List ℤ}
    (h : Backed pgd P used) (i : ι) (q : ℕ) {fpn : ℤ} (hnew : fpn % 2 ^ 13 ∉ used) :
    Backed (setPte pgd i q (pteSetFpn 0 fpn)) (fun j r => P j r ∨ j = i ∧ r = q)
      (fpn % 2 ^ 13 :: used) := by
  have hother : ∀ j r, ¬ (j = i ∧ r = q) → setPte pgd i q (pteSetFpn 0 fpn) j r = pgd j r :=
    fun j r hne => setPte_of_ne pgd _ hne
  have hfpn := pagingFpn_pteSetFpn 0 fpn
  constructor
  · intro j r hr
    by_cases hp : j = i ∧ r = q
    · rw [hp.1, hp.2, setPte_self]
      exact pagePresent_pteSetFpn 0 fpn
    · rw [hother j r hp]
      exact h.present j r (hr.resolve_right hp)
  · intro j r hr
    by_cases hp : j = i ∧ r = q
    · rw [hp.1, hp.2, setPte_self]
      exact not_pageSwapped_pteSetFpn 0 fpn
    · rw [hother j r hp]
      exact h.notSwapped j r (hr.resolve_right hp)
  · intro j r hr
    by_cases hp : j = i ∧ r = q
    · rw [hp.1, hp.2, setPte_self, hfpn]
      exact List.mem_cons_self
    · rw [hother j r hp]
      exact List.mem_cons_of_mem _ (h.frame j r (hr.resolve_right hp))
  · -- The new page has the new frame, which no other page has.
    intro j r k s hr hs heq
    by_cases hp : j = i ∧ r = q <;> by_cases hp' : k = i ∧ s = q
    · exact ⟨hp.1.trans hp'.1.symm, hp.2.trans hp'.2.symm⟩
    · rw [hp.1, hp.2, setPte_self, hfpn, hother k s hp'] at heq
      exact absurd (heq ▸ h.frame k s (hs.resolve_right hp')) hnew
    · rw [hp'.1, hp'.2, setPte_self, hfpn, hother j r hp] at heq
      exact absurd (heq ▸ h.frame j r (hr.resolve_right hp)) hnew
    · rw [hother j r hp, hother k s hp'] at heq
      exact h.injective j r k s (hr.resolve_right hp) (hs.resolve_right hp') heq

/-- The frame numbers as the entries keep them. -/
def fpnFields (fpns : List ℤ) : List ℤ := fpns.map (· % 2 ^ 13)

/-- **Mapping a range** of pages of process `i` to new frames. -/
theorem Backed.mapPages {mm : ι → Mm} {P : ι → ℕ → Prop} {used : List ℤ}
    (h : Backed (fun j => (mm j).pgd) P used) (i : ι) (q : ℕ) {fpns : List ℤ}
    (hnodup : (fpnFields fpns).Nodup) (hnew : ∀ f ∈ fpnFields fpns, f ∉ used) :
    Backed (fun j => (Function.update mm i (mapPages (mm i) q fpns) j).pgd)
      (fun j r => P j r ∨ j = i ∧ q ≤ r ∧ r < q + fpns.length) (fpnFields fpns ++ used) := by
  induction fpns generalizing mm P used q with
  | nil =>
      rw [Libmem.mapPages, Function.update_eq_self]
      refine h.mono (fun j r hr => hr.resolve_right ?_) fun f hf => hf
      rintro ⟨-, hle, hlt⟩
      simp only [List.length_nil, Nat.add_zero] at hlt
      omega
  | cons fpn fpns ih =>
      rw [fpnFields, List.map_cons] at hnodup hnew
      obtain ⟨hfresh, hnodup⟩ := List.nodup_cons.mp hnodup
      have hone := h.mapPage i q (hnew _ List.mem_cons_self)
      have htables : setPte (fun j => (mm j).pgd) i q (pteSetFpn 0 fpn) =
          fun j => (Function.update mm i (SimOs.mapPage (mm i) q fpn) j).pgd := by
        ext j : 1
        rcases eq_or_ne j i with rfl | hne
        · simp only [setPte, Function.update_self, SimOs.mapPage]
        · simp only [setPte, Function.update_of_ne hne]
      rw [htables] at hone
      have hrest := ih hone (q + 1) hnodup (fun f hf => by
        rw [List.mem_cons, not_or]
        exact ⟨fun he => hfresh (he ▸ hf), hnew f (List.mem_cons_of_mem _ hf)⟩)
      rw [Function.update_self, Function.update_idem] at hrest
      rw [Libmem.mapPages]
      apply hrest.mono
      · intro j r hr
        rw [List.length_cons] at hr
        rcases hr with hr | ⟨hj, hle, hlt⟩
        · exact Or.inl (Or.inl hr)
        · rcases Nat.eq_or_lt_of_le hle with rfl | hgt
          · exact Or.inl (Or.inr ⟨hj, rfl⟩)
          · exact Or.inr ⟨hj, hgt, by omega⟩
      · intro f hf
        simp only [fpnFields, List.map_cons, List.mem_append, List.mem_cons] at hf ⊢
        tauto

/-- Pages outside the range keep their entries. -/
theorem pgd_mapPages_of_out {mm : Mm} {q : ℕ} {fpns : List ℤ} {r : ℕ}
    (h : ¬ (q ≤ r ∧ r < q + fpns.length)) : (mapPages mm q fpns).pgd r = mm.pgd r := by
  induction fpns generalizing mm q with
  | nil => rfl
  | cons fpn fpns ih =>
      rw [List.length_cons] at h
      rw [Libmem.mapPages, ih (by omega)]
      exact Function.update_of_ne (by omega) _ _

/-- The cell of RAM that a process reaches at an address. -/
def cell (pgd : ι → ℕ → BitVec 32) (k : ι × ℤ) : ℤ :=
  physAddr (pagingFpn (pgd k.1 (pagingPgn k.2))) (pagingOffst k.2)

omit [DecidableEq ι] in
theorem cell_eq (pgd : ι → ℕ → BitVec 32) (k : ι × ℤ) :
    cell pgd k = pagingFpn (pgd k.1 (pagingPgn k.2)) * 256 + pagingOffst k.2 :=
  physAddr_eq (pagingFpn_nonneg _) (pagingFpn_lt _) (pagingOffst_lt _)

omit [DecidableEq ι] in
/-- **Every mapped byte has a cell of its own.** -/
theorem Backed.cell_injective {pgd : ι → ℕ → BitVec 32} {P : ι → ℕ → Prop} {used : List ℤ}
    (h : Backed pgd P used) {k l : ι × ℤ} (hk : P k.1 (pagingPgn k.2))
    (hl : P l.1 (pagingPgn l.2)) (hk0 : 0 ≤ k.2) (hk22 : k.2 < 2 ^ 22) (hl0 : 0 ≤ l.2)
    (hl22 : l.2 < 2 ^ 22) (heq : cell pgd k = cell pgd l) : k = l := by
  rw [cell_eq, cell_eq] at heq
  have hoffk := pagingOffst_lt k.2
  have hoffl := pagingOffst_lt l.2
  simp only [pagingPagesz] at hoffk hoffl
  obtain ⟨hi, hpgn⟩ := h.injective _ _ _ _ hk hl (by omega)
  exact Prod.ext hi (eq_of_pgn_offst hk0 hk22 hl0 hl22 hpgn (by omega))

omit [DecidableEq ι] in
/-- The cells of a frame inside the device are in range. -/
theorem cell_inRange {pgd : ι → ℕ → BitVec 32} {mp : Memphy} {k : ι × ℤ}
    (h : mp.FrameInside (pagingFpn (pgd k.1 (pagingPgn k.2)))) : mp.InRange (cell pgd k) := by
  obtain ⟨h0, hle⟩ := h
  have hoff := pagingOffst_lt k.2
  simp only [pagingPagesz] at hoff hle
  rw [cell_eq]
  constructor
  · omega
  · omega

end Tables

/-! ## Access to resident pages -/

theorem isPage_pagingPgn (addr : ℤ) : IsPage (pagingPgn addr) :=
  ⟨Int.natCast_nonneg _, by rw [Int.toNat_natCast]; exact pagingPgn_lt addr⟩

/-- The page of an address, if it is present, costs no fault. -/
theorem pgGetpage_pagingPgn {c : Caller} {addr : ℤ}
    (h : PagePresent (c.mm.pgd (pagingPgn addr))) :
    pgGetpage c (pagingPgn addr) = some (.ok (pagingFpn (c.mm.pgd (pagingPgn addr))), c) :=
  pgGetpage_of_present (isPage_pagingPgn addr) h

end SimOs.Libmem
