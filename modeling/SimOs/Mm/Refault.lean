import SimOs.Mm.Fault

/-!
# Pages that fault again

`pg_getpage` reads the entry of the page into a local variable, and when it has brought
the page into RAM it calls `pte_set_fpn` on that variable.  The entry in the page table
stays as it was.  The page has been enlisted, but is not resident, and every access to it
faults.

## Main definitions

* `Tracked`: the FIFO list has every resident page once, and nothing else.
* `MadeResident`: what a page fault is for.
* `never_made_resident`: no page fault does it.
-/

namespace SimOs.Libmem

/-- A page that is present and not in swap. -/
def IsResident (mm : Mm) (pgn : ℤ) : Prop :=
  IsPage pgn ∧ PagePresent (mm.pgd pgn.toNat) ∧ ¬ PageSwapped (mm.pgd pgn.toNat)

instance (mm : Mm) (pgn : ℤ) : Decidable (IsResident mm pgn) :=
  inferInstanceAs (Decidable (_ ∧ _ ∧ _))

/-- The FIFO list has every resident page exactly once, and nothing else. -/
def Tracked (mm : Mm) : Prop :=
  ∃ pages, mm.fifoPgn = Chain.ofList pages ∧ pages.Nodup ∧
    ∀ pgn, pgn ∈ pages ↔ IsResident mm pgn

/-- The fault of page `pgn` that returned frame `fpn` has made the page resident. -/
structure MadeResident (c' : Caller) (pgn fpn : ℤ) : Prop where
  present : PagePresent (c'.mm.pgd pgn.toNat)
  notSwapped : ¬ PageSwapped (c'.mm.pgd pgn.toNat)
  frame : pagingFpn (c'.mm.pgd pgn.toNat) = fpn
  tracked : Tracked c'.mm
  again : pgGetpage c' pgn = some (.ok fpn, c')

/-- A fault that succeeds changes the entry of another page, and enlists this one. -/
theorem pgGetpage_fault {c c' : Caller} {pgn fpn : ℤ} (hpage : IsPage pgn)
    (habsent : ¬ PagePresent (c.mm.pgd pgn.toNat)) (h : pgGetpage c pgn = some (.ok fpn, c')) :
    c'.mm.pgd pgn.toNat = c.mm.pgd pgn.toNat ∧ ∃ rest, c'.mm.fifoPgn = .node pgn rest := by
  constructor
  · generalize hr : (Ret.ok fpn, c') = r at h
    have hcase := pgGetpage_cases h
    cases hcase with
    | failed _ _ _ => cases hr
    | present hpresent => exact absurd hpresent habsent
    | evicted c'' vicpgn swpfpn _ _ _ hvic hpgd _ =>
        obtain ⟨-, rfl⟩ := Prod.mk.inj hr
        have hne : pgn.toNat ≠ vicpgn.toNat := by
          intro heq
          rw [heq] at habsent
          exact habsent hvic
        rw [hpgd, Function.update_of_ne hne]
  · rw [pgGetpage_of_absent hpage habsent] at h
    obtain ⟨⟨r, c₁⟩, hfault, heq⟩ := Option.map_eq_some_iff.mp h
    obtain ⟨hr, rfl⟩ := Prod.mk.inj heq
    by_cases hfifo : c.mm.fifoPgn = .null
    · rw [pageFault_of_null hfifo] at hfault
      obtain ⟨rfl, -⟩ := Prod.mk.inj (Option.some.inj hfault)
      cases hr
    · cases hpop : c.mm.fifoPgn.popLast with
      | none =>
          rw [pageFault_of_popLast_none hfifo hpop] at hfault
          cases hfault
      | some victim =>
          by_cases hv : Evictable c victim.1
          · obtain ⟨pte, c₂, heq', hlist⟩ := pageFault_of_evictable hpop hv hfault
            obtain ⟨-, rfl⟩ := Prod.mk.inj heq'
            exact ⟨victim.2, hlist⟩
          · rw [pageFault_of_not_evictable hpop hv] at hfault
            obtain ⟨rfl, -⟩ := Prod.mk.inj (Option.some.inj hfault)
            cases hr

/-- **No page fault makes its page resident.**  In every state, after a fault that returned
0 the page is not present, the FIFO list has it all the same, and the next access does not
leave the state as it is. -/
theorem never_made_resident {c c' : Caller} {pgn fpn : ℤ} (hpage : IsPage pgn)
    (habsent : ¬ PagePresent (c.mm.pgd pgn.toNat)) (h : pgGetpage c pgn = some (.ok fpn, c')) :
    ¬ PagePresent (c'.mm.pgd pgn.toNat) ∧ ¬ Tracked c'.mm ∧
      pgGetpage c' pgn ≠ some (.ok fpn, c') ∧ ¬ MadeResident c' pgn fpn := by
  obtain ⟨hentry, rest, hfifo⟩ := pgGetpage_fault hpage habsent h
  have habsent' : ¬ PagePresent (c'.mm.pgd pgn.toNat) := by
    rw [hentry]
    exact habsent
  refine ⟨habsent', ?_, ?_, fun hmade => habsent' hmade.present⟩
  · rintro ⟨pages, hpages, -, hiff⟩
    have hmem : pgn ∈ pages := by
      rw [← Chain.toList_ofList pages, ← hpages, hfifo]
      exact List.mem_cons_self
    exact habsent' ((hiff pgn).mp hmem).2.1
  · intro hagain
    have hnull := fifoPgn_eq_null_of_fault hpage habsent' hagain rfl
    rw [hfifo] at hnull
    cases hnull

/-- The two pages of the process are resident, and the FIFO list has both. -/
theorem tracked_swapProc : Tracked (swapProc.caller ()).mm := by
  refine ⟨[1, 0], by decide +kernel, by decide, ?_⟩
  intro pgn
  constructor
  · intro hmem
    rcases List.mem_cons.mp hmem with rfl | hmem
    · decide +kernel
    · obtain rfl := List.mem_singleton.mp hmem
      decide +kernel
  · rintro ⟨⟨h0, -⟩, hpresent, -⟩
    obtain ⟨m, hm, -, hle, hlt⟩ :=
      ((Demand.init mapping_swapProc).present () pgn.toNat).mp hpresent
    obtain rfl := List.mem_singleton.mp hm
    have htwo : pgn.toNat < 2 := hlt
    have hcases : pgn = 1 ∨ pgn = 0 := by omega
    simpa using hcases

theorem never_made_resident_swapProc :
    ∃ fpn c', pgGetpage (swapProc.caller ()) 2 = some (.ok fpn, c') ∧
      ¬ MadeResident c' 2 fpn := by
  have hrun : (pgGetpage (swapProc.caller ()) 2).any fun r => r.1 ≠ .err := by decide +kernel
  obtain ⟨⟨r, c'⟩, hget, hok⟩ := (Option.any_eq_true _ _).mp hrun
  cases r with
  | err => exact absurd rfl (of_decide_eq_true hok)
  | ok fpn =>
      exact ⟨fpn, c', hget, (never_made_resident (by decide) (by decide +kernel) hget).2.2.2⟩

/-- **Page 2 is brought in** and is not present. -/
theorem fault_not_written_back :
    Tracked (swapProc.caller ()).mm ∧
      ∃ fpn c', pgGetpage (swapProc.caller ()) 2 = some (.ok fpn, c') ∧
        ¬ MadeResident c' 2 fpn := by
  refine ⟨tracked_swapProc, ?_⟩
  have hrun : (pgGetpage (swapProc.caller ()) 2).any fun r =>
      r.1 ≠ .err ∧ ¬ PagePresent (r.2.mm.pgd 2) := by decide +kernel
  obtain ⟨⟨r, c'⟩, hget, hcase⟩ := (Option.any_eq_true _ _).mp hrun
  obtain ⟨hok, habsent⟩ := of_decide_eq_true hcase
  cases r with
  | err => exact absurd rfl hok
  | ok fpn => exact ⟨fpn, c', hget, fun hmade => habsent hmade.present⟩

end SimOs.Libmem
