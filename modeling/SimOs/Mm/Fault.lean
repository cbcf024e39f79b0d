import SimOs.Mm.Demand

/-!
# Accesses that should fail

`pg_getpage` unlinks the oldest page of the FIFO list before it looks at that page and
before it asks for a swap frame.  None of the failures after that puts the page back.

The entry of a page that was never mapped is 0.  `pg_getpage` takes it for the entry of
a page in swap frame 0: it evicts the victim, and frees swap frame 0.  The access is
refused only if there is no victim.

## Main definitions

* `Untouched`: what a failing access should leave alone.
* `Evictable`: the condition under which a fault with a victim succeeds.
* `failed_fault_iff`: when a failing fault leaves no trace.
* `unmapped_refused_iff`: when the access to a page never mapped is refused.
-/

namespace SimOs.Libmem

/-- The page table, the FIFO list and both devices are as before. -/
structure Untouched (c c' : Caller) : Prop where
  pgd : c'.mm.pgd = c.mm.pgd
  fifoPgn : c'.mm.fifoPgn = c.mm.fifoPgn
  dev : c'.dev = c.dev

theorem Untouched.refl (c : Caller) : Untouched c c := ⟨rfl, rfl, rfl⟩

/-- The access returns -1 and changes nothing. -/
def Refused {α : Type} (c : Caller) (r : Option (Ret α × Caller)) : Prop :=
  ∃ c', r = some (.err, c') ∧ Untouched c c'

/-- Page `v` is present, and there is a free frame of swap to send it to. -/
structure Evictable (c : Caller) (v : ℤ) : Prop where
  page : IsPage v
  present : PagePresent (c.mm.pgd v.toNat)
  free : (c.dev .activeMswp).freeFpList ≠ .null

/-! ## The fault, by its victim -/

section Fault

variable {c : Caller} {pgn v : ℤ} {rest : Chain ℤ}

theorem mem_oldest {mm : Mm} : v ∈ oldest mm ↔ ∃ rest, mm.fifoPgn.popLast = some (v, rest) := by
  rw [oldest, Option.mem_def, Option.map_eq_some_iff]
  constructor
  · rintro ⟨⟨v, rest⟩, hpop, rfl⟩
    exact ⟨rest, hpop⟩
  · rintro ⟨rest, hpop⟩
    exact ⟨(v, rest), hpop, rfl⟩

/-- No page in the FIFO list: the fault fails at once. -/
theorem pageFault_of_null (hfifo : c.mm.fifoPgn = .null) (pte : BitVec 32) :
    pageFault c pgn pte = some (.err, c) := by
  rw [pageFault, findVictimPage_of_null hfifo]
  rfl

/-- A FIFO list that does not end: there is no last page. -/
theorem pageFault_of_popLast_none (hfifo : c.mm.fifoPgn ≠ .null)
    (hpop : c.mm.fifoPgn.popLast = none) (pte : BitVec 32) : pageFault c pgn pte = none := by
  rw [pageFault, findVictimPage, if_neg (mt Chain.eq_null_of_isNull hfifo), hpop]
  rfl

/-- A victim that cannot be evicted: the fault fails, and the victim is unlinked. -/
theorem pageFault_of_not_evictable (hpop : c.mm.fifoPgn.popLast = some (v, rest))
    (hv : ¬ Evictable c v) (pte : BitVec 32) :
    pageFault c pgn pte = some (.err, c.setMm { c.mm with fifoPgn := rest }) := by
  rw [pageFault, findVictimPage_of_popLast hpop]
  by_cases hpage : IsPage v
  · refine (if_neg (not_not.mpr hpage)).trans ?_
    by_cases hpresent : PagePresent (c.mm.pgd v.toNat)
    · refine (if_neg (not_not.mpr hpresent)).trans ?_
      have hfull : (c.dev .activeMswp).freeFpList = .null := by
        by_contra hfree
        exact hv ⟨hpage, hpresent, hfree⟩
      simp only [Caller.dev_setMm, Memphy.getFreefp_nil hfull]
      exact congrArg (fun c => some (Ret.err, c)) (Caller.setDev_dev (c.setMm _) .activeMswp)
    · exact if_pos hpresent
  · exact if_pos hpage

omit v rest in
/-- The exchange enlists the page. -/
theorem fifoPgn_exchange {pte pte' : BitVec 32} {vicpgn vicfpn swpfpn : ℤ} {c' : Caller}
    (h : exchange c pgn pte vicpgn vicfpn swpfpn = some (pte', c')) :
    c'.mm.fifoPgn = .node pgn c.mm.fifoPgn := by
  simp only [exchange, Option.bind_eq_some_iff, Option.map_eq_some_iff] at h
  obtain ⟨_, _, _, _, heq⟩ := h
  obtain ⟨-, rfl⟩ := Prod.mk.inj heq
  rfl

/-- A victim that can be evicted: the fault succeeds, and the page takes the victim's place
in the FIFO list. -/
theorem pageFault_of_evictable (hpop : c.mm.fifoPgn.popLast = some (v, rest))
    (hv : Evictable c v) {pte : BitVec 32} {r : Ret (BitVec 32) × Caller}
    (h : pageFault c pgn pte = some r) :
    ∃ pte' c', r = (.ok pte', c') ∧ c'.mm.fifoPgn = .node pgn rest := by
  rw [pageFault, findVictimPage_of_popLast hpop] at h
  simp only [Caller.dev_setMm] at h
  split at h
  · next hpage => exact absurd hv.page hpage
  · split at h
    · next hpresent => exact absurd hv.present hpresent
    · cases hlist : (c.dev .activeMswp).freeFpList with
      | null => exact absurd hlist hv.free
      | wild =>
          simp only [Memphy.getFreefp, hlist] at h
          cases h
      | node swpfpn next =>
          simp only [Memphy.getFreefp, hlist] at h
          obtain ⟨⟨pte', c'⟩, hex, rfl⟩ := Option.map_eq_some_iff.mp h
          exact ⟨pte', c', rfl, fifoPgn_exchange hex⟩

end Fault

/-! ## When a fault changes the FIFO list -/

section Fifo

variable {c : Caller} {pgn : ℤ} (hpage : IsPage pgn) (habsent : ¬ PagePresent (c.mm.pgd pgn.toNat))

include hpage habsent

/-- **A fault that leaves the FIFO list alone** found it empty.  A victim that is not
evicted is missing from it, and one that is evicted has another page in its place. -/
theorem fifoPgn_eq_null_of_fault {r : Ret ℤ × Caller} (h : pgGetpage c pgn = some r)
    (hsame : r.2.mm.fifoPgn = c.mm.fifoPgn) : c.mm.fifoPgn = .null := by
  rw [pgGetpage_of_absent hpage habsent] at h
  obtain ⟨r', hfault, rfl⟩ := Option.map_eq_some_iff.mp h
  by_contra hfifo
  cases hpop : c.mm.fifoPgn.popLast with
  | none =>
      rw [pageFault_of_popLast_none hfifo hpop] at hfault
      cases hfault
  | some victim =>
      obtain ⟨v, rest⟩ := victim
      by_cases hv : Evictable c v
      · obtain ⟨pte, c', rfl, hfifo'⟩ := pageFault_of_evictable hpop hv hfault
        rw [hfifo'] at hsame
        rw [← hsame] at hpop
        -- The list ends with the page that it now begins with.
        obtain rfl := Chain.eq_of_popLast_node hpop
        exact habsent hv.present
      · rw [pageFault_of_not_evictable hpop hv] at hfault
        obtain rfl := Option.some.inj hfault
        have hlength := Chain.length_popLast hpop
        simp only [Caller.mm_setMm] at hsame
        rw [hsame] at hlength
        omega

/-- A fault on an empty FIFO list changes nothing. -/
theorem pgGetpage_of_null (hfifo : c.mm.fifoPgn = .null) : pgGetpage c pgn = some (.err, c) := by
  rw [pgGetpage_of_absent hpage habsent, pageFault_of_null hfifo]
  rfl

/-- An access that fails if its page fault does, and touches no list after it, is refused
if and only if no page is in the FIFO list. -/
theorem refused_iff {α : Type} {r : Option (Ret α × Caller)}
    (herr : pgGetpage c pgn = some (.err, c) → r = some (.err, c))
    (hfifo : ∀ a c', r = some (a, c') →
      ∃ p, pgGetpage c pgn = some p ∧ p.2.mm.fifoPgn = c'.mm.fifoPgn) :
    Refused c r ↔ c.mm.fifoPgn = .null := by
  constructor
  · rintro ⟨c', hr, huntouched⟩
    obtain ⟨p, hp, hsame⟩ := hfifo .err c' hr
    exact fifoPgn_eq_null_of_fault hpage habsent hp (hsame.trans huntouched.fifoPgn)
  · intro hnull
    exact ⟨c, herr (pgGetpage_of_null hpage habsent hnull), .refl c⟩

end Fifo

/-! ## Failing faults -/

/-- What a failing access to a page has done: nothing, or it has unlinked a victim that
cannot be evicted. -/
theorem pgGetpage_err {c c' : Caller} {pgn : ℤ} (h : pgGetpage c pgn = some (.err, c')) :
    c' = c ∨ IsPage pgn ∧ ¬ PagePresent (c.mm.pgd pgn.toNat) ∧
      ∃ v ∈ oldest c.mm, ¬ Evictable c v := by
  by_cases hpage : IsPage pgn
  · by_cases hpresent : PagePresent (c.mm.pgd pgn.toNat)
    · rw [pgGetpage_of_present hpage hpresent] at h
      cases h
    · by_cases hfifo : c.mm.fifoPgn = .null
      · rw [pgGetpage_of_null hpage hpresent hfifo] at h
        exact Or.inl (Prod.mk.inj (Option.some.inj h)).2.symm
      · rw [pgGetpage_of_absent hpage hpresent] at h
        obtain ⟨r, hfault, hr⟩ := Option.map_eq_some_iff.mp h
        cases hpop : c.mm.fifoPgn.popLast with
        | none =>
            rw [pageFault_of_popLast_none hfifo hpop] at hfault
            cases hfault
        | some victim =>
            refine Or.inr ⟨hpage, hpresent, victim.1, mem_oldest.mpr ⟨victim.2, hpop⟩, ?_⟩
            intro hv
            obtain ⟨pte, c'', rfl, -⟩ := pageFault_of_evictable hpop hv hfault
            cases hr
  · rw [pgGetpage_of_not_isPage hpage] at h
    exact Or.inl (Prod.mk.inj (Option.some.inj h)).2.symm

/-- **A failing fault leaves no trace** if and only if it fails before the victim is
unlinked. -/
theorem failed_fault_iff (c : Caller) (pgn : ℤ) :
    (∀ c', pgGetpage c pgn = some (.err, c') → Untouched c c') ↔
      (IsPage pgn → ¬ PagePresent (c.mm.pgd pgn.toNat) → ∀ v ∈ oldest c.mm, Evictable c v) := by
  constructor
  · intro huntouched hpage habsent v hold
    obtain ⟨rest, hpop⟩ := mem_oldest.mp hold
    by_contra hv
    have hfault : pgGetpage c pgn = some (.err, c.setMm { c.mm with fifoPgn := rest }) := by
      rw [pgGetpage_of_absent hpage habsent, pageFault_of_not_evictable hpop hv]
      rfl
    have hnull := fifoPgn_eq_null_of_fault hpage habsent hfault (huntouched _ hfault).fifoPgn
    rw [hnull] at hpop
    cases hpop
  · intro hcond c' h
    rcases pgGetpage_err h with rfl | ⟨hpage, habsent, v, hold, hv⟩
    · exact .refl c'
    · exact absurd (hcond hpage habsent v hold) hv

/-- **A victim is lost.**  The fault leaves the entry of its page as it was, so after two
reads of page 2 the oldest page is page 2 itself, which is not present. -/
theorem failed_fault_unlinks :
    ∃ h, (accessSystem (fun _ k => Below k.2) swapProc).run ⟨swapProc, fun _ => none⟩
        [.getval () 512, .getval () 512] = some h ∧
      ∃ c', pgGetpage (h.now.caller ()) 2 = some (.err, c') ∧
        ¬ Untouched (h.now.caller ()) c' := by
  have hrun : ((accessSystem (fun _ k => Below k.2) swapProc).run ⟨swapProc, fun _ => none⟩
      [.getval () 512, .getval () 512]).any fun h =>
        (pgGetpage (h.now.caller ()) 2).any fun r =>
          r.1 = .err ∧ r.2.mm.fifoPgn ≠ (h.now.caller ()).mm.fifoPgn := by
    decide +kernel
  obtain ⟨h, hh, hlost⟩ := (Option.any_eq_true _ _).mp hrun
  obtain ⟨⟨r, c'⟩, hget, hr⟩ := (Option.any_eq_true _ _).mp hlost
  obtain ⟨rfl, hfifo⟩ := of_decide_eq_true hr
  exact ⟨h, hh, c', hget, fun huntouched => hfifo huntouched.fifoPgn⟩

/-! ## Pages that were never mapped -/

/-- What an access does after `pg_getpage` leaves the FIFO list alone. -/
theorem fifoPgn_pgGetval {c c' : Caller} {addr : ℤ} {r : Ret BYTE}
    (h : pgGetval c addr = some (r, c')) :
    ∃ p, pgGetpage c (pagingPgn addr) = some p ∧ p.2.mm.fifoPgn = c'.mm.fifoPgn := by
  rw [pgGetval] at h
  split at h
  · cases h
  · next c₁ hpage =>
      obtain ⟨-, rfl⟩ := Prod.mk.inj (Option.some.inj h)
      exact ⟨_, hpage, rfl⟩
  · next fpn c₁ hpage =>
      obtain ⟨p, -, heq⟩ := Option.map_eq_some_iff.mp h
      obtain ⟨-, rfl⟩ := Prod.mk.inj heq
      exact ⟨_, hpage, rfl⟩

theorem fifoPgn_pgSetval {c c' : Caller} {addr : ℤ} {value : BYTE} {r : Ret Unit}
    (h : pgSetval c addr value = some (r, c')) :
    ∃ p, pgGetpage c (pagingPgn addr) = some p ∧ p.2.mm.fifoPgn = c'.mm.fifoPgn := by
  rw [pgSetval] at h
  split at h
  · cases h
  · next c₁ hpage =>
      obtain ⟨-, rfl⟩ := Prod.mk.inj (Option.some.inj h)
      exact ⟨_, hpage, rfl⟩
  · next fpn c₁ hpage =>
      obtain ⟨p, -, heq⟩ := Option.map_eq_some_iff.mp h
      obtain ⟨-, rfl⟩ := Prod.mk.inj heq
      exact ⟨_, hpage, rfl⟩

/-- **The access to a page that was never mapped is refused** if and only if no page is in
the FIFO list. -/
theorem unmapped_refused_iff {c : Caller} {addr : ℤ} (h : c.mm.pgd (pagingPgn addr) = 0) :
    (Refused c (pgGetval c addr) ↔ c.mm.fifoPgn = .null) ∧
      ∀ value, Refused c (pgSetval c addr value) ↔ c.mm.fifoPgn = .null := by
  have hpage := isPage_pagingPgn addr
  have habsent : ¬ PagePresent (c.mm.pgd ((pagingPgn addr : ℤ)).toNat) := by
    rw [Int.toNat_natCast, h]
    exact not_pagePresent_zero
  constructor
  · apply refused_iff hpage habsent
    · intro herr
      simp only [pgGetval, herr]
    · intro a c' hget
      exact fifoPgn_pgGetval hget
  · intro value
    apply refused_iff hpage habsent
    · intro herr
      simp only [pgSetval, herr]
    · intro a c' hset
      exact fifoPgn_pgSetval hset

/-- A process that has mapped nothing. -/
def emptyProc : Caller := ⟨initMm .zeroed, swapProc.dev⟩

theorem unmapped_refused_iff_emptyProc :
    Refused emptyProc (pgGetval emptyProc 512) ∧
      ∀ value, Refused emptyProc (pgSetval emptyProc 512 value) := by
  have h := unmapped_refused_iff (show emptyProc.mm.pgd (pagingPgn 512) = 0 from rfl)
  constructor
  · exact h.1.mpr rfl
  · intro value
    exact (h.2 value).mpr rfl

/-- **The read of an unmapped page** returns 0.  It sends page 0 to swap frame 0, and then
enters swap frame 0 in the free list. -/
theorem unmapped_read_evicts :
    (swapProc.caller ()).mm.pgd (pagingPgn 512) = 0 ∧
      ∃ value c', pgGetval (swapProc.caller ()) 512 = some (.ok value, c') ∧
        ¬ Untouched (swapProc.caller ()) c' ∧ PageSwapped (c'.mm.pgd 0) ∧
        pagingPteSwp (c'.mm.pgd 0) ∈ (c'.dev .activeMswp).freeFpList.toList := by
  have hrun : (pgGetval (swapProc.caller ()) 512).any fun r =>
      r.1 ≠ .err ∧ r.2.mm.fifoPgn ≠ (swapProc.caller ()).mm.fifoPgn ∧
        PageSwapped (r.2.mm.pgd 0) ∧
        pagingPteSwp (r.2.mm.pgd 0) ∈ (r.2.dev .activeMswp).freeFpList.toList := by
    decide +kernel
  obtain ⟨⟨r, c'⟩, hget, hr⟩ := (Option.any_eq_true _ _).mp hrun
  obtain ⟨hok, hfifo, hswapped, hfree⟩ := of_decide_eq_true hr
  cases r with
  | err => exact absurd rfl hok
  | ok value =>
      exact ⟨by decide, value, c', hget, fun huntouched => hfifo huntouched.fifoPgn, hswapped,
        hfree⟩

end SimOs.Libmem
