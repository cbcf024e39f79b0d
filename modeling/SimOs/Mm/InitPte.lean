import SimOs.Common
import SimOs.Mm.PteUpdates

/-!
# The life of a page table entry

Three functions fill an entry.  `pte_set_fpn` and `pte_set_swap` never fail.  `init_pte`
does the work of either of them, clears the dirty bit as well, and refuses to put a page
that is not swapped on frame 0; without `pre` it does nothing.  Nothing else sets or clears
the dirty bit, so once `init_pte` has filled an entry the bit stays clear.

The entry refines a record of what it stands for, over any sequence of calls with any
arguments.  A number that does not fit its field loses its upper bits there: `init_pte`
tests all of `fpn`, and so accepts multiples of 2^13 for a page on frame 0.

## Main definitions

* `initPte`: `init_pte`.
* `PteCall`, `PteCall.call`: the calls, with what they return.
* `Meaning`, `Meaning.call`: what an entry stands for.
* `Stands`: that an entry stands for it.
* `entry_life`: the refinement.
-/

namespace SimOs

/-- `PAGING_PTE_DIRTY_MASK`. -/
def pagingPteDirtyMask : BitVec 32 := bit 28

/-- `init_pte`.  It does not use `drt`. -/
def initPte (pte : BitVec 32) (pre fpn _drt swp swptyp swpoff : ℤ) : Ret Unit × BitVec 32 :=
  if pre ≠ 0 then
    if swp = 0 then
      if fpn = 0 then (.err, pte)
      else
        let pte := setbit pte pagingPtePresentMask
        let pte := clrbit pte pagingPteSwappedMask
        let pte := clrbit pte pagingPteDirtyMask
        (.ok (), setval pte (BitVec.ofInt 32 fpn) pagingPteFpnMask pagingPteFpnLobit)
    else
      let pte := setbit pte pagingPtePresentMask
      let pte := setbit pte pagingPteSwappedMask
      let pte := clrbit pte pagingPteDirtyMask
      let pte := setval pte (BitVec.ofInt 32 swptyp) pagingPteSwptypMask pagingPteSwptypLobit
      (.ok (), setval pte (BitVec.ofInt 32 swpoff) pagingPteSwpoffMask pagingPteSwpoffLobit)
  else (.ok (), pte)

/-! ## Clearing a bit outside a field -/

section Clear
variable {m d : BitVec 32}

/-- The bit is none of the field's. -/
theorem getLsbD_eq_false (h : m &&& d = 0) {i : ℕ} (hm : m.getLsbD i = true) :
    d.getLsbD i = false := by
  have hbit : (m &&& d).getLsbD i = false := by simp [h]
  rwa [BitVec.getLsbD_and, hm, Bool.true_and] at hbit

/-- Nothing is seen of it under the mask of the field. -/
theorem clrbit_and (h : m &&& d = 0) (v : BitVec 32) : clrbit v d &&& m = v &&& m := by
  apply BitVec.eq_of_getLsbD_eq
  intro i hi
  simp only [clrbit, BitVec.getLsbD_and, BitVec.getLsbD_not, hi, decide_true, Bool.true_and]
  cases hm : m.getLsbD i with
  | true => simp [getLsbD_eq_false h hm]
  | false => simp

/-- It makes no difference whether the field is written before or after. -/
theorem setval_clrbit (h : m &&& d = 0) (v x : BitVec 32) (l : ℕ) :
    setval (clrbit v d) x m l = clrbit (setval v x m l) d := by
  apply BitVec.eq_of_getLsbD_eq
  intro i hi
  simp only [setval_eq, BitField.getLsbD_set hi, clrbit, BitVec.getLsbD_and, BitVec.getLsbD_not,
    hi, decide_true, Bool.true_and]
  cases hm : m.getLsbD i with
  | true => simp [getLsbD_eq_false h hm]
  | false => simp

end Clear

/-- **`init_pte`** does the work of the other two, and clears the dirty bit. -/
theorem initPte_eq (pte : BitVec 32) (pre fpn drt swp swptyp swpoff : ℤ) :
    initPte pte pre fpn drt swp swptyp swpoff =
      if pre = 0 then (.ok (), pte)
      else if swp ≠ 0 then (.ok (), clrbit (pteSetSwap pte swptyp swpoff) pagingPteDirtyMask)
      else if fpn = 0 then (.err, pte)
      else (.ok (), clrbit (pteSetFpn pte fpn) pagingPteDirtyMask) := by
  have hfpn : pagingPteFpnMask &&& pagingPteDirtyMask = 0 := by decide
  have htyp : pagingPteSwptypMask &&& pagingPteDirtyMask = 0 := by decide
  have hoff : pagingPteSwpoffMask &&& pagingPteDirtyMask = 0 := by decide
  rw [initPte]
  by_cases hpre : pre = 0
  · simp [hpre]
  · by_cases hswp : swp = 0
    · simp [hpre, hswp, pteSetFpn, setval_clrbit hfpn]
    · simp [hpre, hswp, pteSetSwap, setval_clrbit htyp, setval_clrbit hoff]

/-! ## Calls -/

/-- A call that fills an entry, with any arguments. -/
inductive PteCall
  | initPte (pre fpn drt swp swptyp swpoff : ℤ)
  | pteSetFpn (fpn : ℤ)
  | pteSetSwap (swptyp swpoff : ℤ)

/-- A call on an entry, and what it returns. -/
def PteCall.call (pte : BitVec 32) : PteCall → Ret Unit × BitVec 32
  | .initPte pre fpn drt swp swptyp swpoff => SimOs.initPte pte pre fpn drt swp swptyp swpoff
  | .pteSetFpn fpn => (.ok (), SimOs.pteSetFpn pte fpn)
  | .pteSetSwap swptyp swpoff => (.ok (), SimOs.pteSetSwap pte swptyp swpoff)

/-- A sequence of calls, what they return and what they leave. -/
def runCalls {σ : Type} (call : σ → PteCall → Ret Unit × σ) :
    σ → List PteCall → List (Ret Unit) × σ
  | s, [] => ([], s)
  | s, c :: cs =>
      let r := runCalls call (call s c).2 cs
      ((call s c).1 :: r.1, r.2)

/-! ## What an entry stands for -/

/-- Where the page of an entry is. -/
inductive Filling
  /-- The entry has not been filled. -/
  | untouched
  | frame (fpn : ℤ)
  | swap (swptyp swpoff : ℤ)

/-- What an entry stands for. -/
structure Meaning where
  filling : Filling
  /-- `init_pte` has cleared the dirty bit. -/
  clean : Bool

/-- What a call makes of it. -/
def Meaning.call (e : Meaning) : PteCall → Ret Unit × Meaning
  | .initPte pre fpn _ swp swptyp swpoff =>
      if pre = 0 then (.ok (), e)
      else if swp ≠ 0 then (.ok (), ⟨.swap (swptyp % 2 ^ 5) (swpoff % 2 ^ 21), true⟩)
      else if fpn = 0 then (.err, e)
      else (.ok (), ⟨.frame (fpn % 2 ^ 13), true⟩)
  | .pteSetFpn fpn => (.ok (), { e with filling := .frame (fpn % 2 ^ 13) })
  | .pteSetSwap swptyp swpoff =>
      (.ok (), { e with filling := .swap (swptyp % 2 ^ 5) (swpoff % 2 ^ 21) })

/-- How an entry that was `pte₀` at the start says where its page is. -/
def Filling.Shown (pte₀ pte : BitVec 32) : Filling → Prop
  | .untouched => pte = pte₀
  | .frame fpn => PagePresent pte ∧ ¬ PageSwapped pte ∧ pagingFpn pte = fpn
  | .swap swptyp swpoff =>
      PagePresent pte ∧ PageSwapped pte ∧ pteSwptyp pte = swptyp ∧ pagingPteSwp pte = swpoff

/-- An entry that was `pte₀` at the start stands for `e`. -/
structure Stands (pte₀ pte : BitVec 32) (e : Meaning) : Prop where
  shown : e.filling.Shown pte₀ pte
  dirty : pte.getLsbD 28 = (pte₀.getLsbD 28 && !e.clean)
  /-- No call writes the other bits above the fields. -/
  rest : ∀ i, i ∈ [26, 27, 29] → pte.getLsbD i = pte₀.getLsbD i

section Life
variable {pte₀ pte : BitVec 32} {e : Meaning}

/-- What `pte_set_fpn` writes is read. -/
theorem shown_pteSetFpn (pte₀ pte : BitVec 32) (fpn : ℤ) :
    (Filling.frame (fpn % 2 ^ 13)).Shown pte₀ (pteSetFpn pte fpn) :=
  ⟨pagePresent_pteSetFpn pte fpn, not_pageSwapped_pteSetFpn pte fpn, pagingFpn_pteSetFpn pte fpn⟩

/-- What `pte_set_swap` writes is read. -/
theorem shown_pteSetSwap (pte₀ pte : BitVec 32) (swptyp swpoff : ℤ) :
    (Filling.swap (swptyp % 2 ^ 5) (swpoff % 2 ^ 21)).Shown pte₀
      (pteSetSwap pte swptyp swpoff) :=
  ⟨pagePresent_pteSetSwap pte swptyp swpoff, pageSwapped_pteSetSwap pte swptyp swpoff,
    pteSwptyp_pteSetSwap pte swptyp swpoff, pagingPteSwp_pteSetSwap pte swptyp swpoff⟩

/-- The dirty bit says nothing about where the page is. -/
theorem shown_clrbit {f : Filling} (hf : f ≠ .untouched) (h : f.Shown pte₀ pte) :
    f.Shown pte₀ (clrbit pte pagingPteDirtyMask) := by
  have hpre : PagePresent (clrbit pte pagingPteDirtyMask) ↔ PagePresent pte := by
    rw [PagePresent, PagePresent, clrbit_and (by decide)]
  have hswp : PageSwapped (clrbit pte pagingPteDirtyMask) ↔ PageSwapped pte := by
    rw [PageSwapped, PageSwapped, clrbit_and (by decide)]
  cases f with
  | untouched => exact absurd rfl hf
  | frame fpn =>
      obtain ⟨hp, hs, hfpn⟩ := h
      refine ⟨hpre.mpr hp, fun hs' => hs (hswp.mp hs'), ?_⟩
      rw [← hfpn, pagingFpn, pagingFpn, getval, getval, clrbit_and (by decide)]
  | swap swptyp swpoff =>
      obtain ⟨hp, hs, htyp, hoff⟩ := h
      refine ⟨hpre.mpr hp, hswp.mpr hs, ?_, ?_⟩
      · rw [← htyp, pteSwptyp, pteSwptyp, getval, getval, clrbit_and (by decide)]
      · rw [← hoff, pagingPteSwp, pagingPteSwp, getval, getval, clrbit_and (by decide)]

theorem getLsbD_clrbit_dirty (pte : BitVec 32) {i : ℕ} (hi : i < 32) :
    (clrbit pte pagingPteDirtyMask).getLsbD i = (pte.getLsbD i && decide (i ≠ 28)) := by
  simp only [clrbit, pagingPteDirtyMask, bit_eq, BitVec.getLsbD_and, BitVec.getLsbD_not,
    BitVec.getLsbD_twoPow, hi, decide_true, Bool.true_and]
  by_cases h28 : i = 28
  · simp [h28]
  · simp [h28, Ne.symm h28]

/-- An entry that one of the two functions has filled anew. -/
theorem Stands.fill (h : Stands pte₀ pte e) {pte' : BitVec 32} {f : Filling}
    (hshown : f.Shown pte₀ pte')
    (hbits : ∀ i, 25 < i → i < 30 → pte'.getLsbD i = pte.getLsbD i) :
    Stands pte₀ pte' { e with filling := f } where
  shown := hshown
  dirty := (hbits 28 (by decide) (by decide)).trans h.dirty
  rest i hi := by
    have hrange : ∀ j ∈ [26, 27, 29], 25 < j ∧ j < 30 := by decide
    exact (hbits i (hrange i hi).1 (hrange i hi).2).trans (h.rest i hi)

/-- Clearing the dirty bit of a filled entry. -/
theorem Stands.clear (h : Stands pte₀ pte e) (hf : e.filling ≠ .untouched) :
    Stands pte₀ (clrbit pte pagingPteDirtyMask) { e with clean := true } where
  shown := shown_clrbit hf h.shown
  dirty := by
    rw [getLsbD_clrbit_dirty pte (by decide)]
    simp
  rest i hi := by
    have hrange : ∀ j ∈ [26, 27, 29], j < 32 ∧ j ≠ 28 := by decide
    rw [getLsbD_clrbit_dirty pte (hrange i hi).1, ← h.rest i hi]
    simp [(hrange i hi).2]

theorem Stands.pteSetFpn (h : Stands pte₀ pte e) (fpn : ℤ) :
    Stands pte₀ (pteSetFpn pte fpn) { e with filling := .frame (fpn % 2 ^ 13) } := by
  refine h.fill (shown_pteSetFpn pte₀ pte fpn) fun i hlo hhi => ?_
  rw [getLsbD_pteSetFpn pte fpn (by omega), if_neg (by omega), if_neg (by omega),
    if_neg (by omega)]

theorem Stands.pteSetSwap (h : Stands pte₀ pte e) (swptyp swpoff : ℤ) :
    Stands pte₀ (pteSetSwap pte swptyp swpoff)
      { e with filling := .swap (swptyp % 2 ^ 5) (swpoff % 2 ^ 21) } := by
  refine h.fill (shown_pteSetSwap pte₀ pte swptyp swpoff) fun i hlo hhi => ?_
  rw [getLsbD_pteSetSwap pte swptyp swpoff (by omega), if_neg (by omega), if_neg (by omega)]
  simp [show ¬ 30 ≤ i by omega]

/-- **One call** makes of an entry what it makes of its meaning, and returns the same. -/
theorem Stands.call (h : Stands pte₀ pte e) (c : PteCall) :
    (c.call pte).1 = (e.call c).1 ∧ Stands pte₀ (c.call pte).2 (e.call c).2 := by
  cases c with
  | initPte pre fpn drt swp swptyp swpoff =>
      rw [PteCall.call, Meaning.call, initPte_eq]
      by_cases hpre : pre = 0
      · rw [if_pos hpre, if_pos hpre]
        exact ⟨rfl, h⟩
      · rw [if_neg hpre, if_neg hpre]
        by_cases hswp : swp ≠ 0
        · rw [if_pos hswp, if_pos hswp]
          exact ⟨rfl, (h.pteSetSwap swptyp swpoff).clear (by simp)⟩
        · rw [if_neg hswp, if_neg hswp]
          by_cases hfpn : fpn = 0
          · rw [if_pos hfpn, if_pos hfpn]
            exact ⟨rfl, h⟩
          · rw [if_neg hfpn, if_neg hfpn]
            exact ⟨rfl, (h.pteSetFpn fpn).clear (by simp)⟩
  | pteSetFpn fpn => exact ⟨rfl, h.pteSetFpn fpn⟩
  | pteSetSwap swptyp swpoff => exact ⟨rfl, h.pteSetSwap swptyp swpoff⟩

/-- **A sequence of calls.** -/
theorem Stands.runCalls (h : Stands pte₀ pte e) (calls : List PteCall) :
    (runCalls (fun pte c => c.call pte) pte calls).1 = (runCalls Meaning.call e calls).1 ∧
      Stands pte₀ (runCalls (fun pte c => c.call pte) pte calls).2
        (runCalls Meaning.call e calls).2 := by
  induction calls generalizing pte e with
  | nil => exact ⟨rfl, h⟩
  | cons c calls ih =>
      obtain ⟨hret, hnext⟩ := h.call c
      obtain ⟨hrets, hlast⟩ := ih hnext
      simp only [SimOs.runCalls]
      exact ⟨by rw [hret, hrets], hlast⟩

end Life

/-- **The life of an entry**: whatever an entry holds at the start and whatever sequence of
`init_pte`, `pte_set_fpn` and `pte_set_swap` is called on it, each call returns what it
returns on the meaning of the entry, and at the end the entry says exactly where the last
call that took effect has put the page, its dirty bit is the one of the start unless an
`init_pte` took effect, and its bits 26, 27 and 29 are those of the start. -/
theorem entry_life (pte : BitVec 32) (calls : List PteCall) :
    (runCalls (fun pte c => c.call pte) pte calls).1 =
        (runCalls Meaning.call ⟨.untouched, false⟩ calls).1 ∧
      Stands pte (runCalls (fun pte c => c.call pte) pte calls).2
        (runCalls Meaning.call ⟨.untouched, false⟩ calls).2 := by
  have hstart : Stands pte pte ⟨.untouched, false⟩ :=
    ⟨rfl, (Bool.and_true _).symm, fun _ _ => rfl⟩
  exact hstart.runCalls calls

end SimOs
