import SimOs.Mm.Pte

/-!
# Updates of a page table entry

An entry is filled again and again, by `pte_set_fpn` when its page comes into a frame and
by `pte_set_swap` when the page leaves for the swap, and never cleared in between.  The
frame number shares its bits with the swap type and the swap offset.  Nothing of one
filling is left in what is read after the next: the field that is read lies within the
field that was written, and only the bits that no operation writes keep their first
value.

## Main definitions

* `PteUpdate`: one call, with arguments that fit their fields.
* `PteUpdate.Decodes`: what the entry says after the call.
* `updates_decode`: the last call alone decides.
-/

namespace SimOs

/-- The swap type of an entry, read under the mask of its field. -/
def pteSwptyp (pte : BitVec 32) : ℤ :=
  CInt.sint 32 (getval pte pagingPteSwptypMask pagingPteSwptypLobit).toNat

/-- A call that fills an entry. -/
inductive PteUpdate
  | setFpn (fpn : Fin 8192)
  | setSwap (swptyp : Fin 32) (swpoff : Fin 2097152)
  deriving DecidableEq

namespace PteUpdate

/-- The effect of a call. -/
def apply (pte : BitVec 32) : PteUpdate → BitVec 32
  | setFpn fpn => pteSetFpn pte fpn
  | setSwap swptyp swpoff => pteSetSwap pte swptyp swpoff

/-- The bits of the fields of a call. -/
def Field : PteUpdate → ℕ → Prop
  | setFpn _, i => i ≤ 12
  | setSwap _ _, i => i ≤ 25

/-- What an entry says when it was filled by this call. -/
def Decodes (pte : BitVec 32) : PteUpdate → Prop
  | setFpn fpn => PagePresent pte ∧ ¬ PageSwapped pte ∧ pagingFpn pte = fpn
  | setSwap swptyp swpoff =>
      PagePresent pte ∧ PageSwapped pte ∧ pagingPteSwp pte = swpoff ∧ pteSwptyp pte = swptyp

end PteUpdate

/-- The entry after a sequence of calls. -/
def pteUpdates (pte : BitVec 32) (us : List PteUpdate) : BitVec 32 := us.foldl PteUpdate.apply pte

@[simp] theorem pteUpdates_concat (pte : BitVec 32) (us : List PteUpdate) (u : PteUpdate) :
    pteUpdates pte (us ++ [u]) = u.apply (pteUpdates pte us) := by
  simp [pteUpdates]

/-- **The swap type** of an entry filled by `pte_set_swap`: what fits the field. -/
theorem pteSwptyp_pteSetSwap (pte : BitVec 32) (swptyp swpoff : ℤ) :
    pteSwptyp (pteSetSwap pte swptyp swpoff) = swptyp % 2 ^ 5 := by
  have hget : (getval (pteSetSwap pte swptyp swpoff) pagingPteSwptypMask
      pagingPteSwptypLobit).toNat = (BitVec.ofInt 32 swptyp).toNat % 2 ^ 5 := by
    -- the offset is written after the type, above its field
    have hfield := BitField.toNat_get_mask (h := 4) (l := 0) (by decide)
      (pteSetSwap pte swptyp swpoff)
    rw [pow_zero, Nat.div_one] at hfield
    apply hfield.trans
    apply Nat.eq_of_testBit_eq
    intro i
    rw [Nat.testBit_mod_two_pow, Nat.testBit_mod_two_pow, BitVec.testBit_toNat,
      BitVec.testBit_toNat]
    by_cases hi : i < 5
    · rw [getLsbD_pteSetSwap pte swptyp swpoff (by omega), if_pos (by omega)]
    · simp [hi]
  have hint : ((BitVec.ofInt 32 swptyp).toNat : ℤ) = swptyp % 2 ^ 32 := by
    rw [BitVec.toNat_ofInt]
    omega
  rw [pteSwptyp, hget, CInt.sint_eq (by omega) (by omega)]
  omega

/-- One call decides what is read after it, whatever the entry held. -/
theorem PteUpdate.decodes_apply (pte : BitVec 32) (u : PteUpdate) : u.Decodes (u.apply pte) := by
  cases u with
  | setFpn fpn =>
      have hlt := fpn.isLt
      refine ⟨pagePresent_pteSetFpn pte fpn, not_pageSwapped_pteSetFpn pte fpn, ?_⟩
      apply (pagingFpn_pteSetFpn pte fpn).trans
      omega
  | setSwap swptyp swpoff =>
      have htyp := swptyp.isLt
      have hoff := swpoff.isLt
      refine ⟨pagePresent_pteSetSwap pte swptyp swpoff, pageSwapped_pteSetSwap pte swptyp swpoff,
        ?_, ?_⟩
      · apply (pagingPteSwp_pteSetSwap pte swptyp swpoff).trans
        omega
      · apply (pteSwptyp_pteSetSwap pte swptyp swpoff).trans
        omega

/-- **The frame of one call**: the bits outside its fields and the two control bits. -/
theorem PteUpdate.getLsbD_apply (pte : BitVec 32) (u : PteUpdate) {i : ℕ} (hfield : ¬ u.Field i)
    (hswp : i ≠ 30) (hpre : i ≠ 31) : (u.apply pte).getLsbD i = pte.getLsbD i := by
  by_cases hi : i < 32
  · cases u with
    | setFpn fpn =>
        simp only [Field] at hfield
        simp [apply, getLsbD_pteSetFpn pte fpn hi, hfield, hswp, hpre]
    | setSwap swptyp swpoff =>
        simp only [Field] at hfield
        have hctl : ¬ 30 ≤ i := by omega
        simp [apply, getLsbD_pteSetSwap pte swptyp swpoff hi, hfield, hctl,
          show ¬ i ≤ 4 by omega]
  · simp [BitVec.getLsbD_of_ge _ i (Nat.le_of_not_lt hi)]

/-- The bits no call writes keep their value over any sequence of calls. -/
theorem getLsbD_pteUpdates (pte : BitVec 32) (us : List PteUpdate) {i : ℕ} (hi : 25 < i)
    (hswp : i ≠ 30) (hpre : i ≠ 31) : (pteUpdates pte us).getLsbD i = pte.getLsbD i := by
  induction us using List.reverseRecOn with
  | nil => rfl
  | append_singleton us u ih =>
      have hfield : ¬ u.Field i := by
        cases u with
        | setFpn fpn => exact Nat.not_le.mpr (Nat.lt_trans (by decide) hi)
        | setSwap swptyp swpoff => exact Nat.not_le.mpr hi
      rw [pteUpdates_concat, u.getLsbD_apply _ hfield hswp hpre, ih]

/-- **The last call decides**: after any calls on any entry, what is read is what the last of
them wrote; and each of them left all bits but the control bits and its own fields. -/
theorem updates_decode (pte : BitVec 32) (us : List PteUpdate) (u : PteUpdate) :
    u.Decodes (pteUpdates pte (us ++ [u])) ∧
      ∀ i, ¬ u.Field i → i ≠ 30 → i ≠ 31 →
        (pteUpdates pte (us ++ [u])).getLsbD i = (pteUpdates pte us).getLsbD i := by
  rw [pteUpdates_concat]
  constructor
  · exact u.decodes_apply _
  · intro i hfield hswp hpre
    exact u.getLsbD_apply _ hfield hswp hpre

end SimOs
