import SimOs.Mm.RegionIds
import SimOs.Mm.Regions

/-!
# Allocated regions are never mapped

`alloc_pages_range` takes frames from RAM and keeps their list to itself: it never
assigns through its argument `frm_lst`.  So `vmap_page_range` maps nothing, the page
table and the FIFO list stay as `init_mm` left them, and an access to any region faults
and finds no victim.  An allocation that returned 0 is unusable, whatever came before.

## Main definitions

* `AllocUsable`: what a successful allocation is for.
* `Unmapped`: the invariant.
* `KeepsPages`: what every call leaves as it is.
* `alloc_never_usable`: no allocation is usable.
-/

namespace SimOs.Libmem

/-- The free frames of RAM. -/
def freeFrames (c : Caller) : List ℤ := (c.dev .mram).freeFpList.toList

/-- The region of `rgid` after a call of `liballoc` for `size` bytes: its pages are
present, on pairwise distinct frames that the call took or the process had, and all of
its bytes can be written and read. -/
structure AllocUsable (c c' : Caller) (rgid size : ℤ) : Prop where
  present : ∀ a, Contains a (c'.mm.symrgtbl rgid) → PagePresent (c'.mm.pgd (pagingPgn a))
  distinct : ∀ a b, Contains a (c'.mm.symrgtbl rgid) → Contains b (c'.mm.symrgtbl rgid) →
    pagingPgn a ≠ pagingPgn b →
    pagingFpn (c'.mm.pgd (pagingPgn a)) ≠ pagingFpn (c'.mm.pgd (pagingPgn b))
  owned : ∀ a, Contains a (c'.mm.symrgtbl rgid) →
    (pagingFpn (c'.mm.pgd (pagingPgn a)) ∈ freeFrames c ∧
      pagingFpn (c'.mm.pgd (pagingPgn a)) ∉ freeFrames c') ∨
    ∃ pgn, PagePresent (c.mm.pgd pgn) ∧
      pagingFpn (c.mm.pgd pgn) = pagingFpn (c'.mm.pgd (pagingPgn a))
  write : ∀ data offset, 0 ≤ offset → offset < size →
    ∃ c'', libwrite c' data rgid offset = some (.ok (), c'')
  read : ∀ offset, 0 ≤ offset → offset < size →
    ∃ data c'', libread c' rgid offset = some (.ok data, c'')

/-- No page is mapped, and none is in the FIFO list. -/
structure Unmapped (c : Caller) : Prop where
  area : ∃ vma, Area c.mm vma
  pgd : ∀ pgn, c.mm.pgd pgn = 0
  fifoPgn : c.mm.fifoPgn = .null

theorem unmapped_initMm {c : Caller} (h : c.mm = initMm .zeroed) : Unmapped c :=
  ⟨h ▸ area_initMm, fun _ => by rw [h]; rfl, by rw [h]; rfl⟩

/-- A call on `rgid` leaves one area, the pages and the records of the other ids. -/
structure KeepsPages (rgid : ℤ) (c c' : Caller) : Prop where
  area : ∃ vma, Area c'.mm vma
  pgd : c'.mm.pgd = c.mm.pgd
  fifoPgn : c'.mm.fifoPgn = c.mm.fifoPgn
  symrgtbl : ∀ id, id ≠ rgid → c'.mm.symrgtbl id = c.mm.symrgtbl id

theorem KeepsPages.refl {c : Caller} {vma : VmArea} (ha : Area c.mm vma) (rgid : ℤ) :
    KeepsPages rgid c c := ⟨⟨vma, ha⟩, rfl, rfl, fun _ _ => rfl⟩

/-- **`__alloc`** leaves the pages. -/
theorem alloc_keepsPages {fresh : Fresh} {c : Caller} {vma : VmArea} {rgid size : ℤ}
    {r : Ret (Option ℤ) × Caller} (ha : Area c.mm vma) (hr : alloc fresh c 0 rgid size = some r) :
    KeepsPages rgid c r.2 := by
  have hcase := alloc_cases ha hr
  cases hcase with
  | overlap => exact .refl ha rgid
  | noFrames mram _ => exact ⟨⟨grown vma size, rfl, ha.vmId⟩, rfl, rfl, fun _ _ => rfl⟩
  | placed mram _ _ =>
      exact ⟨⟨placedArea vma size, ha.placed rfl⟩, rfl, rfl, fun id hne =>
        Function.update_of_ne hne _ _⟩

/-- **`__free`** leaves the pages. -/
theorem free_keepsPages {c : Caller} {vma : VmArea} {rgid : ℤ} {r : Ret Unit × Caller}
    (ha : Area c.mm vma) (hr : free c 0 rgid = some r) : KeepsPages rgid c r.2 := by
  obtain ⟨r', hr', hcase⟩ := free_cases rgid ha
  obtain rfl := Option.some.inj (hr.symm.trans hr')
  cases hcase with
  | empty _ => exact .refl ha rgid
  | moved _ _ =>
      exact ⟨⟨withFree vma (c.mm.symrgtbl rgid), rfl, ha.vmId⟩, rfl, rfl, fun id hne =>
        Function.update_of_ne hne _ _⟩

theorem KeepsPages.unmapped {c c' : Caller} {rgid : ℤ} (hk : KeepsPages rgid c c')
    (h : Unmapped c) : Unmapped c' :=
  ⟨hk.area, fun pgn => by rw [hk.pgd, h.pgd], by rw [hk.fifoPgn, h.fifoPgn]⟩

/-- **`__alloc`** maps nothing. -/
theorem Unmapped.alloc {c : Caller} (h : Unmapped c) {rgid size : ℤ}
    {r : Ret (Option ℤ) × Caller} (hr : alloc .zeroed c 0 rgid size = some r) :
    Unmapped r.2 := by
  obtain ⟨vma, ha⟩ := h.area
  exact (alloc_keepsPages ha hr).unmapped h

/-- **`__free`** maps nothing. -/
theorem Unmapped.free {c : Caller} (h : Unmapped c) {rgid : ℤ} {r : Ret Unit × Caller}
    (hr : free c 0 rgid = some r) : Unmapped r.2 := by
  obtain ⟨vma, ha⟩ := h.area
  exact (free_keepsPages ha hr).unmapped h

/-- **One call** maps nothing. -/
theorem Unmapped.call {c c' : Caller} (h : Unmapped c) {call : RegionCall}
    (hcall : regionCall .zeroed c call = some c') : Unmapped c' := by
  cases call with
  | liballoc size rgid =>
      obtain ⟨r, hr, rfl⟩ := Option.map_eq_some_iff.mp hcall
      exact h.alloc hr
  | libfree rgid =>
      obtain ⟨r, hr, rfl⟩ := Option.map_eq_some_iff.mp hcall
      exact h.free hr

/-- **No sequence of calls** maps a page. -/
theorem reachable_unmapped {Devices : (Dev → Memphy) → Prop} {maxSize : ℤ} {c : Caller}
    (h : (regionSystem Devices maxSize).Reachable c) : Unmapped c := by
  refine h.invariant (P := Unmapped) (fun c (hc : c.mm = _ ∧ _) => unmapped_initMm hc.1) ?_
  intro c call c' hc hstep
  simp only [regionSystem] at hstep
  split at hstep
  · exact hc.call hstep
  · cases hstep

/-- No page is present, and none is in the FIFO list. -/
structure Absent (c : Caller) : Prop where
  area : ∃ vma, Area c.mm vma
  pgd : ∀ pgn < pagingMaxPgn, ¬ PagePresent (c.mm.pgd pgn)
  fifoPgn : c.mm.fifoPgn = .null

theorem Unmapped.absent {c : Caller} (h : Unmapped c) : Absent c where
  area := h.area
  pgd pgn _ := by
    rw [h.pgd]
    exact not_pagePresent_zero
  fifoPgn := h.fifoPgn

theorem KeepsPages.absent {c c' : Caller} {rgid : ℤ} (hk : KeepsPages rgid c c')
    (h : Absent c) : Absent c' :=
  ⟨hk.area, by rw [hk.pgd]; exact h.pgd, by rw [hk.fifoPgn, h.fifoPgn]⟩

/-- A page fault finds no victim. -/
theorem Absent.pgGetpage {c : Caller} (h : Absent c) (pgn : ℤ) :
    pgGetpage c pgn = some (.err, c) := by
  by_cases hpage : IsPage pgn
  · rw [pgGetpage_of_absent hpage (h.pgd pgn.toNat hpage.2), pageFault,
      findVictimPage_of_null h.fifoPgn]
    rfl
  · exact pgGetpage_of_not_isPage hpage

/-- **Every write** through an id fails and changes nothing. -/
theorem Absent.libwrite {c : Caller} (h : Absent c) {rgid : ℤ} (hid : IsSymbol rgid)
    (data : BYTE) (offset : ℤ) : libwrite c data rgid offset = some (.err, c) := by
  obtain ⟨vma, ha⟩ := h.area
  rw [libwrite_symbol ha.hasArea hid]
  simp only [pgSetval, h.pgGetpage]

/-- **Every read** through an id fails and changes nothing. -/
theorem Absent.libread {c : Caller} (h : Absent c) {rgid : ℤ} (hid : IsSymbol rgid)
    (offset : ℤ) : libread c rgid offset = some (.err, c) := by
  obtain ⟨vma, ha⟩ := h.area
  apply libread_symbol_err ha.hasArea hid
  simp only [pgGetval, h.pgGetpage]

/-- Not even the first byte can be written. -/
theorem Unmapped.not_usable {c c' : Caller} (h : Unmapped c') {rgid size : ℤ}
    (hid : IsSymbol rgid) (hsize : 0 < size) : ¬ AllocUsable c c' rgid size := by
  intro husable
  obtain ⟨c'', hok⟩ := husable.write 0 0 le_rfl hsize
  rw [h.absent.libwrite hid] at hok
  cases hok

/-- **No allocation is usable**: after any sequence of calls, a further `liballoc` that
returns 0 leaves a region that cannot be used, every access to which returns -1.  That
there were enough frames does not matter. -/
theorem alloc_never_usable {c c' : Caller} {size rgid : ℤ} {r : Option ℤ}
    (h : (regionSystem (fun _ => True) (2 ^ 32 - 1)).Reachable c) (hid : IsSymbol rgid)
    (hsize : 0 < size) (hcall : liballoc .zeroed c size rgid = some (.ok r, c')) :
    ¬ AllocUsable c c' rgid size ∧
      ∀ offset, libread c' rgid offset = some (.err, c') ∧
        ∀ data, libwrite c' data rgid offset = some (.err, c') := by
  have hunmapped : Unmapped c' := (reachable_unmapped h).alloc hcall
  exact ⟨hunmapped.not_usable hid hsize, fun offset =>
    ⟨hunmapped.absent.libread hid offset, fun data =>
      hunmapped.absent.libwrite hid data offset⟩⟩

theorem alloc_never_usable_small :
    ∃ c', liballoc .zeroed smallProc 300 0 = some (.ok (some 0), c') ∧
      ¬ AllocUsable smallProc c' 0 300 := by
  have hret : (liballoc .zeroed smallProc 300 0).any fun r => r.1 = .ok (some 0) := by
    decide +kernel
  obtain ⟨⟨ret, c'⟩, hcall, hok⟩ := (Option.any_eq_true _ _).mp hret
  obtain rfl : ret = .ok (some 0) := of_decide_eq_true hok
  exact ⟨c', hcall, (alloc_never_usable (Lts.Reachable.of_init ⟨rfl, trivial⟩) (by decide)
    (by decide) hcall).1⟩

/-- Ten bytes on a RAM with two free frames: the call returns 0, and the first byte
cannot be written. -/
theorem alloc_ten_unusable :
    (regionSystem (fun _ => True) (2 ^ 32 - 1)).Reachable smallProc ∧
      reqPages 10 ≤ (freeFrames smallProc).length ∧
      ∃ c', liballoc .zeroed smallProc 10 0 = some (.ok (some 0), c') ∧
        ¬ AllocUsable smallProc c' 0 10 := by
  refine ⟨Lts.Reachable.of_init ⟨rfl, trivial⟩, by decide +kernel, ?_⟩
  have hret : (liballoc .zeroed smallProc 10 0).any fun r => r.1 = .ok (some 0) := by
    decide +kernel
  obtain ⟨⟨ret, c'⟩, hcall, hok⟩ := (Option.any_eq_true _ _).mp hret
  obtain rfl : ret = .ok (some 0) := of_decide_eq_true hok
  have hunmapped : Unmapped c' := (unmapped_initMm (c := smallProc) rfl).alloc hcall
  exact ⟨c', hcall, hunmapped.not_usable (by decide) (by decide)⟩

end SimOs.Libmem
