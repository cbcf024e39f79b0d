import SimOs.Lib.Store
import SimOs.Mm.Access

/-!
# Resident memory is a private byte array

Processes share one random access RAM, and `vmap_page_range` has given them pairwise
distinct frames that lie inside it.  As long as they access mapped addresses, no page
faults.  Then every access succeeds, a read returns what the same process last wrote at
the same address, and a write is seen at no other address and by no other process.

The proof keeps one invariant: the page tables are as mapped, and the RAM shows the
memory of every process through the injective translation.

## Main definitions

* `Prepared`: the state after the mapping.
* `Resident`: the invariant.
* `resident_private`: the accesses behave like private byte arrays.
-/

namespace SimOs.Libmem

universe u

/-! ## Access to a page that is present -/

theorem pgGetval_of_present {c : Caller} {addr : ℤ}
    (h : PagePresent (c.mm.pgd (pagingPgn addr))) (hflag : (c.dev .mram).rdmflg = true)
    (hin : (c.dev .mram).InRange
      (physAddr (pagingFpn (c.mm.pgd (pagingPgn addr))) (pagingOffst addr))) :
    pgGetval c addr = some (.ok ((c.dev .mram).storage
      (physAddr (pagingFpn (c.mm.pgd (pagingPgn addr))) (pagingOffst addr))), c) := by
  simp only [pgGetval, pgGetpage_pagingPgn h, Memphy.read_of_inRange hflag hin,
    Option.map_some, Caller.setDev_dev]

theorem pgSetval_of_present {c : Caller} {addr : ℤ} (value : BYTE)
    (h : PagePresent (c.mm.pgd (pagingPgn addr))) (hflag : (c.dev .mram).rdmflg = true)
    (hin : (c.dev .mram).InRange
      (physAddr (pagingFpn (c.mm.pgd (pagingPgn addr))) (pagingOffst addr))) :
    pgSetval c addr value = some (.ok (), c.setDev .mram
      { c.dev .mram with
        storage := Function.update (c.dev .mram).storage
          (physAddr (pagingFpn (c.mm.pgd (pagingPgn addr))) (pagingOffst addr)) value }) := by
  simp only [pgSetval, pgGetpage_pagingPgn h, Memphy.write_of_inRange hflag hin,
    Option.map_some]

variable {ι : Type u} [DecidableEq ι]

namespace Shared

/-- `mp->storage[addr] = value` in the shared RAM. -/
def setByte (s : Shared ι) (addr : ℤ) (value : BYTE) : Shared ι :=
  { s with
    dev := Function.update s.dev .mram
      { s.dev .mram with storage := Function.update s.ram addr value } }

omit [DecidableEq ι] in
@[simp] theorem mram_setByte (s : Shared ι) (addr : ℤ) (value : BYTE) :
    (s.setByte addr value).dev .mram =
      { s.dev .mram with storage := Function.update s.ram addr value } := by
  simp only [setByte, Function.update_self]

omit [DecidableEq ι] in
@[simp] theorem ram_setByte (s : Shared ι) (addr : ℤ) (value : BYTE) :
    (s.setByte addr value).ram = Function.update s.ram addr value := by
  rw [ram, mram_setByte]

/-- What a read of an address returns. -/
def reads (s : Shared ι) (k : ι × ℤ) : Option (Ret BYTE) := (s.getval k.1 k.2).map Prod.fst

/-- An address whose page is present, in a random access RAM that has the byte. -/
structure Usable (s : Shared ι) (k : ι × ℤ) : Prop where
  present : PagePresent (s.pgd k.1 (pagingPgn k.2))
  random : (s.dev .mram).rdmflg = true
  inRange : (s.dev .mram).InRange (cell s.pgd k)

/-- **A read** returns the byte of the cell. -/
theorem Usable.getval {s : Shared ι} {i : ι} {addr : ℤ} (h : s.Usable (i, addr)) :
    s.getval i addr = some (.ok (s.byteAt (i, addr)), s) := by
  have hget := pgGetval_of_present (c := s.caller i) h.present h.random h.inRange
  rw [Shared.getval, hget, Option.map_some, put_caller]
  rfl

/-- **A write** changes the byte of the cell. -/
theorem Usable.setval {s : Shared ι} {i : ι} {addr : ℤ} (h : s.Usable (i, addr))
    (value : BYTE) :
    s.setval i addr value = some (.ok (), s.setByte (cell s.pgd (i, addr)) value) := by
  have hset := pgSetval_of_present (c := s.caller i) value h.present h.random h.inRange
  rw [Shared.setval, hset, Option.map_some]
  have hmm : Function.update s.mm i (s.mm i) = s.mm := Function.update_eq_self i s.mm
  simp only [put, Caller.setDev, caller, hmm]
  rfl

end Shared

/-- The tables are filled by the calls of `vmap_page_range`, with pairwise distinct frames
inside a random access RAM. -/
structure Prepared (maps : List (MapCall ι)) (s : Shared ι) : Prop where
  tables : ∃ mm, mapAll mm maps = some s.mm
  fits : ∀ m ∈ maps, m.Fits
  distinct : (framesOf maps).Nodup
  field : ∀ f ∈ framesOf maps, f < 2 ^ 13
  inside : ∀ f ∈ framesOf maps, (s.dev .mram).FrameInside f
  random : (s.dev .mram).rdmflg = true

namespace Prepared

variable {maps : List (MapCall ι)} {s : Shared ι}

/-- The entries keep the frame numbers. -/
theorem fpnFields_eq (h : Prepared maps s) : fpnFields (framesOf maps) = framesOf maps := by
  refine (List.map_congr_left ?_).trans (List.map_id _)
  intro f hf
  exact Int.emod_eq_of_lt (h.inside f hf).1 (h.field f hf)

/-- The mapped pages are on frames of their own. -/
theorem backed (h : Prepared maps s) : Backed s.pgd (MappedPage maps) (framesOf maps) := by
  obtain ⟨mm, hmap⟩ := h.tables
  have hdistinct : (fpnFields (framesOf maps)).Nodup := by
    rw [h.fpnFields_eq]
    exact h.distinct
  have hall := backed_of_mapAll h.fits hdistinct hmap
  rwa [h.fpnFields_eq] at hall

/-- The translation of mapped addresses is injective. -/
theorem cell_injective (h : Prepared maps s) (k l : ι × ℤ) (hk : Mapped maps k)
    (hl : Mapped maps l) (heq : cell s.pgd k = cell s.pgd l) : k = l := by
  obtain ⟨hk0, hk22, hkp⟩ := hk.page h.fits
  obtain ⟨hl0, hl22, hlp⟩ := hl.page h.fits
  exact h.backed.cell_injective hkp hlp hk0 hk22 hl0 hl22 heq

/-- Mapped addresses can be accessed. -/
theorem usable (h : Prepared maps s) {k : ι × ℤ} (hk : Mapped maps k) : s.Usable k := by
  obtain ⟨-, -, hkp⟩ := hk.page h.fits
  exact ⟨h.backed.present _ _ hkp, h.random, cell_inRange (h.inside _ (h.backed.frame _ _ hkp))⟩

end Prepared

/-- The tables are as at the start, and RAM shows what was last written at every mapped
address. -/
structure Resident (maps : List (MapCall ι)) (s₀ : Shared ι) (h : History ι) : Prop where
  mm : h.now.mm = s₀.mm
  random : (h.now.dev .mram).rdmflg = true
  maxsz : (h.now.dev .mram).maxsz = (s₀.dev .mram).maxsz
  view : View (cell s₀.pgd) (Mapped maps) h.now.ram (h.expected s₀)

namespace Resident

variable {maps : List (MapCall ι)} {s₀ : Shared ι} {h : History ι}

omit [DecidableEq ι] in
theorem pgd (hr : Resident maps s₀ h) : h.now.pgd = s₀.pgd := by
  funext i
  rw [Shared.pgd, Shared.pgd, hr.mm]

theorem usable (hr : Resident maps s₀ h) (hprep : Prepared maps s₀) {k : ι × ℤ}
    (hk : Mapped maps k) : h.now.Usable k := by
  obtain ⟨hpresent, -, h0, hlt⟩ := hprep.usable hk
  constructor
  · rw [hr.pgd]
    exact hpresent
  · exact hr.random
  · rw [hr.pgd]
    exact ⟨h0, hr.maxsz ▸ hlt⟩

omit [DecidableEq ι] in
/-- The byte of a mapped address is what was last written there. -/
theorem byteAt (hr : Resident maps s₀ h) {k : ι × ℤ} (hk : Mapped maps k) :
    h.now.byteAt k = h.expected s₀ k := by
  rw [Shared.byteAt, hr.pgd]
  exact hr.view k hk

/-- Nothing is written at the start. -/
theorem init (hprep : Prepared maps s₀) : Resident maps s₀ ⟨s₀, fun _ => none⟩ :=
  ⟨rfl, hprep.random, rfl, fun _ _ => rfl⟩

/-- **A write** keeps the invariant. -/
theorem setByte (hr : Resident maps s₀ h) (hprep : Prepared maps s₀) {k : ι × ℤ}
    (hk : Mapped maps k) (value : BYTE) :
    Resident maps s₀ ⟨h.now.setByte (cell h.now.pgd k) value,
      Function.update h.written k (some value)⟩ := by
  refine ⟨hr.mm, ?_, ?_, ?_⟩
  · rw [Shared.mram_setByte]
    exact hr.random
  · rw [Shared.mram_setByte]
    exact hr.maxsz
  · rw [History.expected_update, Shared.ram_setByte, hr.pgd]
    exact hr.view.write hprep.cell_injective hk value

/-- **One access** to a mapped address keeps the invariant. -/
theorem access (hr : Resident maps s₀ h) (hprep : Prepared maps s₀) {call : Access ι}
    (hk : Mapped maps call.key) {h' : History ι} (hcall : h.access call = some h') :
    Resident maps s₀ h' := by
  cases call with
  | getval i addr =>
      rw [History.access, (hr.usable hprep hk).getval, Option.map_some] at hcall
      exact Option.some.inj hcall ▸ hr
  | setval i addr value =>
      rw [History.access, (hr.usable hprep hk).setval, Option.map_some, if_pos rfl] at hcall
      exact Option.some.inj hcall ▸ hr.setByte hprep hk value

/-- What a read returns. -/
theorem reads (hr : Resident maps s₀ h) (hprep : Prepared maps s₀) {k : ι × ℤ}
    (hk : Mapped maps k) : h.now.reads k = some (.ok (h.expected s₀ k)) := by
  rw [Shared.reads, (hr.usable hprep hk).getval, Option.map_some, hr.byteAt hk]

end Resident

/-- **Resident memory is a private byte array.**  Whatever the processes have accessed, in
whatever order, a read of a mapped address returns 0 and the byte last written there, or
the initial one, and changes nothing; a write returns 0, and afterwards every other
address of every process reads as before. -/
theorem resident_private {maps : List (MapCall ι)} {s₀ : Shared ι} (hprep : Prepared maps s₀)
    {h : History ι} (hreach : (accessSystem (fun _ => Mapped maps) s₀).Reachable h) {i : ι}
    {addr : ℤ} (hmapped : Mapped maps (i, addr)) :
    h.now.getval i addr = some (.ok (h.expected s₀ (i, addr)), h.now) ∧
    ∀ value, ∃ s', h.now.setval i addr value = some (.ok (), s') ∧
      ∀ k, Mapped maps k →
        s'.reads k = if k = (i, addr) then some (.ok value) else h.now.reads k := by
  have hr : Resident maps s₀ h := hreach.invariant
    (fun _ hinit => hinit ▸ Resident.init hprep)
    fun h' call h'' hr hstep => by
      simp only [accessSystem] at hstep
      split at hstep
      · next hallowed => exact hr.access hprep hallowed hstep
      · cases hstep
  constructor
  · rw [(hr.usable hprep hmapped).getval, hr.byteAt hmapped]
  · intro value
    refine ⟨_, (hr.usable hprep hmapped).setval value, ?_⟩
    intro k hk
    rw [(hr.setByte hprep hmapped value).reads hprep hk, hr.reads hprep hk,
      History.expected_update]
    by_cases heq : k = (i, addr)
    · rw [if_pos heq, heq, Function.update_self]
    · rw [if_neg heq, Function.update_of_ne heq]

/-- Page 0 of two processes. -/
def twoMaps : List (MapCall Bool) := [⟨false, 0, 1, [1]⟩, ⟨true, 0, 1, [0]⟩]

/-- Two processes on a RAM of two frames. -/
def twoProcs : Shared Bool where
  mm := (mapAll (fun _ => initMm .zeroed) twoMaps).getD fun _ => initMm .zeroed
  dev _ := ⟨fun _ => 0, 512, true, 0, .null⟩

theorem prepared_twoProcs : Prepared twoMaps twoProcs where
  tables := ⟨fun _ => initMm .zeroed, rfl⟩
  fits := by
    intro m hm
    simp only [twoMaps, List.mem_cons, List.not_mem_nil, or_false] at hm
    rcases hm with rfl | rfl <;> exact ⟨by decide, by decide, by decide⟩
  distinct := by decide
  field := by decide
  inside := by decide
  random := rfl

theorem resident_private_twoProcs :
    ∃ s', twoProcs.setval false 3 7 = some (.ok (), s') ∧
      s'.reads (false, 3) = some (.ok 7) ∧ s'.reads (true, 3) = twoProcs.reads (true, 3) := by
  obtain ⟨-, hset⟩ := resident_private prepared_twoProcs (Lts.Reachable.of_init rfl)
    (show Mapped twoMaps (false, 3) by decide)
  obtain ⟨s', hs', hreads⟩ := hset 7
  exact ⟨s', hs', hreads (false, 3) (by decide), hreads (true, 3) (by decide)⟩

end SimOs.Libmem
