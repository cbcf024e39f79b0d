import SimOs.Lib.Store
import SimOs.Mm.Access

/-!
# Demand paging

A page fault moves the oldest page of the FIFO list to swap and gives its frame to the
faulting page.  But `pte_set_swap` leaves the present bit on, and `pg_getpage` tests
nothing else: a page in swap counts as resident, and the bits of its swap offset are
taken for a frame number.  So memory is kept as long as no access comes upon a page
that is in swap, be it the accessed page or the victim (`demand_preserves`), and a byte
is lost as soon as an evicted page is read (`evicted_byte_lost`).

The invariant is that of resident memory, for the mapped pages that are not in swap.

## Main definitions

* `PageCase`, `pgGetpage_cases`: everything that `pg_getpage` can do.
* `NoneInSwap`: the access comes upon no page in swap.
* `Demand`: the invariant.
* `demand_preserves`, `evicted_byte_lost`: what is kept, and what is lost.
-/

namespace SimOs.Libmem

universe u

/-! ## What a page access can do -/

/-- The oldest page of the FIFO list. -/
def oldest (mm : Mm) : Option ℤ := mm.fifoPgn.popLast.map Prod.fst

/-- `find_victim_page` takes the oldest page, and leaves the page table alone. -/
theorem findVictimPage_eq_some {mm mm' : Mm} {r : Ret ℤ} (h : findVictimPage mm = some (r, mm')) :
    mm'.pgd = mm.pgd ∧ ∀ v, r = .ok v → v ∈ oldest mm := by
  rw [findVictimPage] at h
  split at h
  · obtain ⟨rfl, rfl⟩ := Prod.mk.inj (Option.some.inj h)
    exact ⟨rfl, fun v hv => by cases hv⟩
  · obtain ⟨⟨v, fifo⟩, hpop, heq⟩ := Option.map_eq_some_iff.mp h
    obtain ⟨rfl, rfl⟩ := Prod.mk.inj heq
    refine ⟨rfl, ?_⟩
    intro v' hv'
    obtain rfl := Ret.ok.inj hv'
    rw [oldest, hpop]
    rfl

/-- What `pg_getpage` can do: fail without touching the page table or RAM, find the page
present, or evict the oldest page and hand out its frame. -/
inductive PageCase (c : Caller) (pgn : ℤ) : Ret ℤ × Caller → Prop
  | failed (c' : Caller) (hpgd : c'.mm.pgd = c.mm.pgd) (hram : c'.dev .mram = c.dev .mram) :
      PageCase c pgn (.err, c')
  | present (hpage : PagePresent (c.mm.pgd pgn.toNat)) :
      PageCase c pgn (.ok (pagingFpn (c.mm.pgd pgn.toNat)), c)
  | evicted (c' : Caller) (vicpgn swpfpn : ℤ) (hpage : ¬ PagePresent (c.mm.pgd pgn.toNat))
      (hold : vicpgn ∈ oldest c.mm) (hvic : IsPage vicpgn)
      (hpresent : PagePresent (c.mm.pgd vicpgn.toNat))
      (hpgd : c'.mm.pgd = Function.update c.mm.pgd vicpgn.toNat
        (pteSetSwap (c.mm.pgd vicpgn.toNat) 0 swpfpn))
      (hram : SameBut (pagingFpn (c.mm.pgd vicpgn.toNat)) (c.dev .mram) (c'.dev .mram)) :
      PageCase c pgn (.ok (pagingFpn (c.mm.pgd vicpgn.toNat)), c')

/-- **The exchange** sends the victim to swap and overwrites its frame. -/
theorem exchange_eq_some {c c' : Caller} {pgn vicpgn vicfpn swpfpn : ℤ} {pte pte' : BitVec 32}
    (h : exchange c pgn pte vicpgn vicfpn swpfpn = some (pte', c')) :
    pte' = pteSetFpn pte vicfpn ∧
    c'.mm.pgd = Function.update c.mm.pgd vicpgn.toNat
      (pteSetSwap (c.mm.pgd vicpgn.toNat) 0 swpfpn) ∧
    SameBut vicfpn (c.dev .mram) (c'.dev .mram) := by
  simp only [exchange, Option.bind_eq_some_iff, Option.map_eq_some_iff] at h
  obtain ⟨dev₁, hout, dev₂, hin, heq⟩ := h
  obtain ⟨rfl, rfl⟩ := Prod.mk.inj heq
  refine ⟨rfl, rfl, ?_⟩
  have hne : Dev.mram ≠ Dev.activeMswp := by decide
  have hsame := (swapCpPage_sameBut hin).1
  rw [(swapCpPage_sameBut hout).2 .mram hne] at hsame
  simpa only [Function.update_of_ne hne] using hsame

/-- **The page fault.** -/
theorem pageFault_cases {c : Caller} {pgn : ℤ} {r : Ret (BitVec 32) × Caller}
    (hpage : ¬ PagePresent (c.mm.pgd pgn.toNat))
    (h : pageFault c pgn (c.mm.pgd pgn.toNat) = some r) :
    PageCase c pgn (r.1.map pagingFpn, r.2) := by
  rw [pageFault] at h
  split at h
  · cases h
  · next mm hvic =>
      obtain rfl := Option.some.inj h
      exact .failed _ (findVictimPage_eq_some hvic).1 rfl
  · next vicpgn mm hvic =>
      obtain ⟨hpgd, hold⟩ := findVictimPage_eq_some hvic
      simp only [Caller.mm_setMm, Caller.dev_setMm, hpgd] at h
      split at h
      · obtain rfl := Option.some.inj h
        exact .failed _ hpgd rfl
      · next hIsPage =>
          split at h
          · obtain rfl := Option.some.inj h
            exact .failed _ hpgd rfl
          · next hpresent =>
              split at h
              · cases h
              · obtain rfl := Option.some.inj h
                exact .failed _ hpgd rfl
              · next swpfpn mswp hfree =>
                  obtain ⟨⟨pte, c'⟩, hex, rfl⟩ := Option.map_eq_some_iff.mp h
                  obtain ⟨rfl, hpgd', hram⟩ := exchange_eq_some hex
                  rw [Caller.dev_setDev_of_ne _ (by decide), Caller.dev_setMm] at hram
                  rw [Caller.mm_setDev, Caller.mm_setMm, hpgd] at hpgd'
                  rw [Ret.map, pagingFpn_pteSetFpn,
                    Int.emod_eq_of_lt (pagingFpn_nonneg _) (pagingFpn_lt _)]
                  exact .evicted c' vicpgn swpfpn hpage (hold vicpgn rfl) (not_not.mp hIsPage)
                    (not_not.mp hpresent) hpgd' hram

/-- **`pg_getpage`.** -/
theorem pgGetpage_cases {c : Caller} {pgn : ℤ} {r : Ret ℤ × Caller}
    (h : pgGetpage c pgn = some r) : PageCase c pgn r := by
  by_cases hpage : IsPage pgn
  · by_cases hpresent : PagePresent (c.mm.pgd pgn.toNat)
    · rw [pgGetpage_of_present hpage hpresent] at h
      obtain rfl := Option.some.inj h
      exact .present hpresent
    · rw [pgGetpage_of_absent hpage hpresent] at h
      obtain ⟨r', hfault, rfl⟩ := Option.map_eq_some_iff.mp h
      exact pageFault_cases hpresent hfault
  · rw [pgGetpage_of_not_isPage hpage] at h
    obtain rfl := Option.some.inj h
    exact .failed c rfl rfl

variable {ι : Type u} [DecidableEq ι]

/-! ## The invariant -/

/-- An entry that `pte_set_swap` filled: its page is in swap, and counts as present. -/
def InSwap (pte : BitVec 32) : Prop := PagePresent pte ∧ PageSwapped pte

instance (pte : BitVec 32) : Decidable (InSwap pte) := inferInstanceAs (Decidable (_ ∧ _))

/-- The access comes upon no page in swap: neither the accessed page nor, if that is not
present, the victim. -/
def NoneInSwap (s : Shared ι) (k : ι × ℤ) : Prop :=
  ¬ InSwap (s.pgd k.1 (pagingPgn k.2)) ∧
    (PagePresent (s.pgd k.1 (pagingPgn k.2)) ∨
      ∀ v ∈ oldest (s.mm k.1), IsPage v → ¬ InSwap (s.pgd k.1 v.toNat))

/-- The addresses below 2^22. -/
def Below (addr : ℤ) : Prop := 0 ≤ addr ∧ addr < 2 ^ pagingCpuBusWidth

instance (addr : ℤ) : Decidable (Below addr) := inferInstanceAs (Decidable (_ ∧ _))

instance (s : Shared ι) (k : ι × ℤ) : Decidable (NoneInSwap s k) :=
  inferInstanceAs (Decidable (_ ∧ _))

/-- The tables had no page present before the calls of `vmap_page_range`, whose frame
numbers the entries keep apart. -/
structure Mapping (maps : List (MapCall ι)) (s : Shared ι) : Prop where
  tables : ∃ mm, (∀ i q, ¬ PagePresent ((mm i).pgd q)) ∧ mapAll mm maps = some s.mm
  fits : ∀ m ∈ maps, m.Fits
  distinct : (fpnFields (framesOf maps)).Nodup

/-- A mapped page that is not in swap. -/
def ResidentPage (maps : List (MapCall ι)) (s : Shared ι) (i : ι) (q : ℕ) : Prop :=
  MappedPage maps i q ∧ ¬ PageSwapped (s.pgd i q)

/-- An address of a resident page. -/
def InUse (maps : List (MapCall ι)) (s : Shared ι) (k : ι × ℤ) : Prop :=
  Below k.2 ∧ ResidentPage maps s k.1 (pagingPgn k.2)

/-- The mapped pages are the present ones; the resident pages are on frames of their own,
and RAM shows what was last written there. -/
structure Demand (maps : List (MapCall ι)) (s₀ : Shared ι) (h : History ι) : Prop where
  present : ∀ i q, PagePresent (h.now.pgd i q) ↔ MappedPage maps i q
  backed : Backed h.now.pgd (ResidentPage maps h.now) (fpnFields (framesOf maps))
  view : View (cell h.now.pgd) (InUse maps h.now) h.now.ram (h.expected s₀)

/-- The frame that an access to page `q` of process `i` uses: that of the page if it is
mapped, and otherwise one that no resident page is on. -/
structure Target (maps : List (MapCall ι)) (s : Shared ι) (i : ι) (q : ℕ) (fpn : ℤ) : Prop where
  nonneg : 0 ≤ fpn
  lt : fpn < 2 ^ 13
  mapped : MappedPage maps i q → ResidentPage maps s i q ∧ pagingFpn (s.pgd i q) = fpn
  unmapped : ¬ MappedPage maps i q → ∀ j r, ResidentPage maps s j r → pagingFpn (s.pgd j r) ≠ fpn

namespace Demand

variable {maps : List (MapCall ι)} {s₀ s : Shared ι} {h : History ι}

omit [DecidableEq ι] in
/-- What leaves the tables alone keeps the invariant, if RAM still shows what was
written. -/
theorem of_pgd (hd : Demand maps s₀ h) {written : ι × ℤ → Option BYTE}
    (hpgd : s.pgd = h.now.pgd)
    (hview : View (cell h.now.pgd) (InUse maps h.now) s.ram (History.expected s₀ ⟨s, written⟩)) :
    Demand maps s₀ ⟨s, written⟩ := by
  have hres : ResidentPage maps s = ResidentPage maps h.now := by
    ext i q
    simp only [ResidentPage, hpgd]
  have huse : InUse maps s = InUse maps h.now := by
    ext k
    simp only [InUse, hres]
  refine ⟨?_, ?_, ?_⟩
  · rw [hpgd]
    exact hd.present
  · rw [hpgd, hres]
    exact hd.backed
  · rw [hpgd, huse]
    exact hview

/-- The pages that stay resident when page `v` of process `i` goes to swap. -/
theorem resident_of_evict {i : ι} {v : ℕ} {pte : BitVec 32} (hswapped : PageSwapped pte)
    (hpgd : s.pgd = setPte h.now.pgd i v pte) {j : ι} {r : ℕ} (hres : ResidentPage maps s j r) :
    ¬ (j = i ∧ r = v) ∧ s.pgd j r = h.now.pgd j r ∧ ResidentPage maps h.now j r := by
  obtain ⟨hmapped, hnot⟩ := hres
  have hne : ¬ (j = i ∧ r = v) := by
    rintro ⟨rfl, rfl⟩
    rw [hpgd, setPte_self] at hnot
    exact hnot hswapped
  have hsame : s.pgd j r = h.now.pgd j r := by
    rw [hpgd]
    exact setPte_of_ne h.now.pgd pte hne
  exact ⟨hne, hsame, hmapped, hsame ▸ hnot⟩

/-- **An eviction** of a resident page keeps the invariant, and frees its frame. -/
theorem evict (hd : Demand maps s₀ h) {i : ι} {v : ℕ} (hv : ResidentPage maps h.now i v)
    {pte : BitVec 32} (hpresent : PagePresent pte) (hswapped : PageSwapped pte)
    (hpgd : s.pgd = setPte h.now.pgd i v pte)
    (hram : ∀ addr, (∀ n, n < pagingPagesz → addr ≠ cellAddr (pagingFpn (h.now.pgd i v)) n) →
      s.ram addr = h.now.ram addr) :
    Demand maps s₀ ⟨s, h.written⟩ ∧
      ∀ j r, ResidentPage maps s j r → pagingFpn (s.pgd j r) ≠ pagingFpn (h.now.pgd i v) := by
  have hstay : ∀ j r, ResidentPage maps s j r → ¬ (j = i ∧ r = v) ∧
      s.pgd j r = h.now.pgd j r ∧ ResidentPage maps h.now j r :=
    fun _ _ hres => resident_of_evict hswapped hpgd hres
  have hfree : ∀ j r, ResidentPage maps s j r →
      pagingFpn (s.pgd j r) ≠ pagingFpn (h.now.pgd i v) := by
    intro j r hr heq
    obtain ⟨hne, hsame, hr'⟩ := hstay j r hr
    exact hne (hd.backed.injective j r i v hr' hv (hsame ▸ heq))
  refine ⟨⟨?_, ?_, ?_⟩, hfree⟩
  · -- The victim counts as present before and after.
    intro j r
    rw [hpgd, ← hd.present j r]
    by_cases hvic : j = i ∧ r = v
    · rw [hvic.1, hvic.2, setPte_self]
      exact iff_of_true hpresent ((hd.present i v).mpr hv.1)
    · rw [setPte_of_ne h.now.pgd pte hvic]
  · exact hd.backed.agree fun j r hr => ⟨(hstay j r hr).2.2, (hstay j r hr).2.1⟩
  · apply hd.view.congr
    · intro k hk
      exact ⟨hk.1, (hstay _ _ hk.2).2.2⟩
    · intro k hk
      have hcell : cell s.pgd k = cell h.now.pgd k := by
        rw [cell, cell, (hstay _ _ hk.2).2.1]
      rw [← hcell]
      apply hram
      intro n hn
      rw [cellAddr_eq]
      exact physAddr_ne (pagingFpn_nonneg _) (pagingFpn_lt _) (pagingFpn_nonneg _)
        (pagingFpn_lt _) (pagingOffst_lt _) hn (hfree _ _ hk.2)
    · intro k _
      rfl

/-- **The page access** keeps the invariant, and finds the frame for the access. -/
theorem page (hd : Demand maps s₀ h) {i : ι} {addr : ℤ} (hswap : NoneInSwap h.now (i, addr))
    {r : Ret ℤ} {c : Caller} (hcase : PageCase (h.now.caller i) (pagingPgn addr) (r, c)) :
    Demand maps s₀ ⟨h.now.put i c, h.written⟩ ∧
      ∀ fpn, r = .ok fpn → Target maps (h.now.put i c) i (pagingPgn addr) fpn := by
  obtain ⟨hpageSwap, hvicSwap⟩ := hswap
  cases hcase with
  | failed _ hpgd hram =>
      refine ⟨hd.of_pgd ?_ ?_, fun fpn hfpn => by cases hfpn⟩
      · rw [Shared.pgd_put, hpgd]
        exact Function.update_eq_self i h.now.pgd
      · rw [Shared.ram_put, hram]
        exact hd.view
  | present hpage =>
      rw [Shared.put_caller]
      have hmapped := (hd.present i (pagingPgn addr)).mp hpage
      refine ⟨hd, ?_⟩
      intro fpn hfpn
      obtain rfl := Ret.ok.inj hfpn
      exact ⟨pagingFpn_nonneg _, pagingFpn_lt _,
        fun _ => ⟨⟨hmapped, fun hs => hpageSwap ⟨hpage, hs⟩⟩, rfl⟩, fun hnot => absurd hmapped hnot⟩
  | evicted _ vicpgn swpfpn hpage hold hvic hpresent hpgd hram =>
      have hnotMapped : ¬ MappedPage maps i (pagingPgn addr) := fun hm =>
        hpage ((hd.present i _).mpr hm)
      -- The victim is present, so it is mapped, and by assumption it is not in swap.
      have hvicRes : ResidentPage maps h.now i vicpgn.toNat :=
        ⟨(hd.present i _).mp hpresent, fun hs =>
          hvicSwap.resolve_left hpage vicpgn hold hvic ⟨hpresent, hs⟩⟩
      have htables : (h.now.put i c).pgd = setPte h.now.pgd i vicpgn.toNat
          (pteSetSwap (h.now.pgd i vicpgn.toNat) 0 swpfpn) := by
        rw [Shared.pgd_put, hpgd]
        rfl
      obtain ⟨hinv, hfree⟩ := hd.evict hvicRes (pagePresent_pteSetSwap _ _ _)
        (pageSwapped_pteSetSwap _ _ _) htables hram.storage
      refine ⟨hinv, ?_⟩
      intro fpn hfpn
      obtain rfl := Ret.ok.inj hfpn
      exact ⟨pagingFpn_nonneg _, pagingFpn_lt _, fun hm => absurd hm hnotMapped,
        fun _ => hfree⟩

omit [DecidableEq ι] in
/-- The byte at an address of a mapped page is what was last written there. -/
theorem ram_target (hd : Demand maps s₀ h) {i : ι} {addr fpn : ℤ}
    (ht : Target maps h.now i (pagingPgn addr) fpn) (haddr : Below addr)
    (hmapped : MappedPage maps i (pagingPgn addr)) :
    h.now.ram (physAddr fpn (pagingOffst addr)) = h.expected s₀ (i, addr) := by
  obtain ⟨hres, rfl⟩ := ht.mapped hmapped
  exact hd.view (i, addr) ⟨haddr, hres⟩

/-- **A write** of a byte of the frame keeps the invariant. -/
theorem store (hd : Demand maps s₀ h) {i : ι} {addr fpn : ℤ}
    (ht : Target maps h.now i (pagingPgn addr) fpn) (haddr : Below addr) (value : BYTE)
    (hpgd : s.pgd = h.now.pgd)
    (hram : s.ram = Function.update h.now.ram (physAddr fpn (pagingOffst addr)) value) :
    Demand maps s₀ ⟨s, Function.update h.written (i, addr) (some value)⟩ := by
  refine hd.of_pgd hpgd ?_
  rw [History.expected_update, hram]
  by_cases hmapped : MappedPage maps i (pagingPgn addr)
  · obtain ⟨hpage, rfl⟩ := ht.mapped hmapped
    have hinj : ∀ k l, InUse maps h.now k → InUse maps h.now l →
        cell h.now.pgd k = cell h.now.pgd l → k = l := fun k l hk hl =>
      hd.backed.cell_injective hk.2 hl.2 hk.1.1 hk.1.2 hl.1.1 hl.1.2
    exact hd.view.write hinj (k := (i, addr)) ⟨haddr, hpage⟩ value
  · -- The byte of a page that is not mapped lies in no frame of a resident page.
    apply hd.view.congr
    · intro k hk
      exact hk
    · intro k hk
      apply Function.update_of_ne
      exact physAddr_ne (pagingFpn_nonneg _) (pagingFpn_lt _) ht.nonneg ht.lt
        (pagingOffst_lt _) (pagingOffst_lt _) (ht.unmapped hmapped _ _ hk.2)
    · intro k hk
      apply Function.update_of_ne
      rintro rfl
      exact hmapped hk.2.1

/-- **`pg_getval`** keeps the invariant, and returns what was last written. -/
theorem getval (hd : Demand maps s₀ h) {i : ι} {addr : ℤ} (haddr : Below addr)
    (hswap : NoneInSwap h.now (i, addr)) {r : Ret BYTE × Shared ι}
    (hget : h.now.getval i addr = some r) :
    Demand maps s₀ ⟨r.2, h.written⟩ ∧ ∀ value, MappedPage maps i (pagingPgn addr) →
      r.1 = .ok value → value = h.expected s₀ (i, addr) := by
  obtain ⟨⟨ret, c'⟩, hval, rfl⟩ := Option.map_eq_some_iff.mp hget
  rw [pgGetval] at hval
  split at hval
  · cases hval
  · next c hpage =>
      obtain ⟨rfl, rfl⟩ := Prod.mk.inj (Option.some.inj hval)
      exact ⟨(hd.page hswap (pgGetpage_cases hpage)).1, fun value _ hv => by cases hv⟩
  · next fpn c hpage =>
      obtain ⟨hd', htarget⟩ := hd.page hswap (pgGetpage_cases hpage)
      obtain ⟨⟨r, mp⟩, hread, heq⟩ := Option.map_eq_some_iff.mp hval
      obtain ⟨rfl, rfl⟩ := Prod.mk.inj heq
      obtain ⟨rfl, hr⟩ := Memphy.read_eq_some hread
      rw [Caller.setDev_dev]
      refine ⟨hd', ?_⟩
      intro value hmapped hv
      rcases hr with rfl | ⟨-, rfl⟩
      · cases hv
      · obtain rfl := Ret.ok.inj hv
        exact hd'.ram_target (htarget fpn rfl) haddr hmapped

/-- **`pg_setval`** keeps the invariant. -/
theorem setval (hd : Demand maps s₀ h) {i : ι} {addr : ℤ} (haddr : Below addr)
    (hswap : NoneInSwap h.now (i, addr)) {value : BYTE} {r : Ret Unit × Shared ι}
    (hset : h.now.setval i addr value = some r) :
    Demand maps s₀ ⟨r.2, if r.1 = .ok () then Function.update h.written (i, addr) (some value)
      else h.written⟩ := by
  obtain ⟨⟨ret, c'⟩, hval, rfl⟩ := Option.map_eq_some_iff.mp hset
  rw [pgSetval] at hval
  split at hval
  · cases hval
  · next c hpage =>
      obtain ⟨rfl, rfl⟩ := Prod.mk.inj (Option.some.inj hval)
      exact (hd.page hswap (pgGetpage_cases hpage)).1
  · next fpn c hpage =>
      obtain ⟨hd', htarget⟩ := hd.page hswap (pgGetpage_cases hpage)
      obtain ⟨⟨r, mp⟩, hwrite, heq⟩ := Option.map_eq_some_iff.mp hval
      obtain ⟨rfl, rfl⟩ := Prod.mk.inj heq
      rcases Memphy.write_eq_some hwrite with ⟨rfl, rfl⟩ | ⟨rfl, -, rfl⟩
      · rw [Caller.setDev_dev]
        exact hd'
      · refine hd'.store (htarget fpn rfl) haddr value ?_ ?_
        · rw [Shared.pgd_put, Shared.pgd_put, Caller.mm_setDev]
        · dsimp only
          rw [Shared.ram_put, Shared.ram_put, Caller.dev_setDev_self]

/-- **One access** keeps the invariant. -/
theorem access (hd : Demand maps s₀ h) {call : Access ι} (haddr : Below call.key.2)
    (hswap : NoneInSwap h.now call.key) {h' : History ι} (hcall : h.access call = some h') :
    Demand maps s₀ h' := by
  cases call with
  | getval i addr =>
      obtain ⟨r, hget, rfl⟩ := Option.map_eq_some_iff.mp hcall
      exact (hd.getval haddr hswap hget).1
  | setval i addr value =>
      obtain ⟨r, hset, rfl⟩ := Option.map_eq_some_iff.mp hcall
      exact hd.setval haddr hswap hset

/-- The invariant holds after the mapping. -/
theorem init (hmap : Mapping maps s) : Demand maps s ⟨s, fun _ => none⟩ := by
  obtain ⟨mm, hempty, htables⟩ := hmap.tables
  have hbacked := backed_of_mapAll hmap.fits hmap.distinct htables
  refine ⟨?_, hbacked.mono (fun i q hq => hq.1) fun f hf => hf, fun _ _ => rfl⟩
  intro i q
  constructor
  · intro hpresent
    by_contra hout
    rw [Shared.pgd, pgd_mapAll hmap.fits htables hout] at hpresent
    exact hempty i q hpresent
  · exact hbacked.present i q

end Demand

/-! ## What is kept, and what is lost -/

/-- **Demand paging keeps memory** as long as no access comes upon a page in swap: in every
run of such accesses to addresses below 2^22, mapped or not, a further one that reads a
mapped address and returns 0 yields what was last written there, or the initial byte. -/
theorem demand_preserves {maps : List (MapCall ι)} {s₀ : Shared ι} (hmap : Mapping maps s₀)
    {h : History ι}
    (hreach : (accessSystem (fun s k => Below k.2 ∧ NoneInSwap s k) s₀).Reachable h)
    {i : ι} {addr : ℤ} (hmapped : Mapped maps (i, addr)) (hswap : NoneInSwap h.now (i, addr))
    {value : BYTE} {s : Shared ι} (hget : h.now.getval i addr = some (.ok value, s)) :
    value = h.expected s₀ (i, addr) := by
  have hd : Demand maps s₀ h := hreach.invariant (fun _ hinit => hinit ▸ Demand.init hmap)
    fun h' call h'' hd hstep => by
      simp only [accessSystem] at hstep
      split at hstep
      · next hallowed => exact hd.access hallowed.1 hallowed.2 hstep
      · cases hstep
  obtain ⟨h0, hlt, hpage⟩ := hmapped.page hmap.fits
  exact (hd.getval ⟨h0, hlt⟩ hswap hget).2 value hpage rfl

/-- Pages 0 and 1 of one process. -/
def twoPages : List (MapCall Unit) := [⟨(), 0, 2, [1, 0]⟩]

/-- A process on a RAM of two frames, with one frame of swap. -/
def swapProc : Shared Unit where
  mm := (mapAll (fun _ => initMm .zeroed) twoPages).getD fun _ => initMm .zeroed
  dev
    | .mram => ⟨fun _ => 0, 512, true, 0, .null⟩
    | .activeMswp => ⟨fun _ => 0, 256, true, 0, .ofList [0]⟩

theorem mapping_swapProc : Mapping twoPages swapProc where
  tables := ⟨fun _ => initMm .zeroed, fun _ _ => not_pagePresent_zero, rfl⟩
  fits := by
    intro m hm
    obtain rfl := List.mem_singleton.mp hm
    exact ⟨by decide, by decide, by decide⟩
  distinct := by decide

/-- Both pages are written, and page 0 is evicted by an access to page 2, which is not
mapped. -/
def evictingRun : List (Access Unit) := [.setval () 0 7, .setval () 256 9, .getval () 512]

theorem demand_preserves_swapProc :
    ∃ h s, (accessSystem (fun s k => Below k.2 ∧ NoneInSwap s k) swapProc).run
        ⟨swapProc, fun _ => none⟩ evictingRun = some h ∧
      h.now.getval () 256 = some (.ok (h.expected swapProc ((), 256)), s) := by
  have hrun : ((accessSystem (fun s k => Below k.2 ∧ NoneInSwap s k) swapProc).run
      ⟨swapProc, fun _ => none⟩ evictingRun).any fun h =>
        NoneInSwap h.now ((), 256) ∧ (h.now.getval () 256).any fun r => r.1 ≠ .err := by
    decide +kernel
  obtain ⟨h, hh, hsound⟩ := (Option.any_eq_true _ _).mp hrun
  obtain ⟨hswap, hok⟩ := of_decide_eq_true hsound
  obtain ⟨⟨r, s⟩, hget, hr⟩ := (Option.any_eq_true _ _).mp hok
  cases r with
  | err => exact absurd rfl (of_decide_eq_true hr)
  | ok value =>
      have hvalue := demand_preserves mapping_swapProc ⟨_, evictingRun, rfl, hh⟩
        (show Mapped twoPages ((), 256) by decide) hswap hget
      exact ⟨h, s, hh, hvalue ▸ hget⟩

/-- **An evicted byte is lost.**  The read of address 0 returns 0, and the byte that was
written at address 256. -/
theorem evicted_byte_lost :
    Mapping twoPages swapProc ∧ (framesOf twoPages).Nodup ∧
      (∀ f ∈ framesOf twoPages, (swapProc.dev .mram).FrameInside f) ∧
      (swapProc.dev .activeMswp).freeFpList.toList.Nodup ∧ Mapped twoPages ((), 0) ∧
      ∃ h s, (accessSystem (fun _ k => Below k.2) swapProc).run ⟨swapProc, fun _ => none⟩
          evictingRun = some h ∧
        h.now.getval () 0 = some (.ok 9, s) ∧ h.expected swapProc ((), 0) = 7 := by
  refine ⟨mapping_swapProc, by decide, by decide, by decide, by decide, ?_⟩
  have hrun : ((accessSystem (fun _ k => Below k.2) swapProc).run ⟨swapProc, fun _ => none⟩
      evictingRun).any fun h =>
        h.expected swapProc ((), 0) = 7 ∧ (h.now.getval () 0).any fun r => r.1 = .ok 9 := by
    decide +kernel
  obtain ⟨h, hh, hlost⟩ := (Option.any_eq_true _ _).mp hrun
  obtain ⟨hexpected, hok⟩ := of_decide_eq_true hlost
  obtain ⟨⟨r, s⟩, hget, hr⟩ := (Option.any_eq_true _ _).mp hok
  obtain rfl := of_decide_eq_true hr
  exact ⟨h, s, hh, hget, hexpected⟩

end SimOs.Libmem
