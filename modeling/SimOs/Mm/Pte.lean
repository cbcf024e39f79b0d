import SimOs.Lib.Words

/-!
# Page table entries and addresses

The macros of `mm.h` and `bitops.h` on 32-bit words.  A page table entry has a
present bit, a swapped bit, and either a frame number in its low 13 bits or a swap type
and a swap offset.  An address is split into a page number and an offset by masks.
`paging_pgn` and `paging_offst` below 2^22 are quotient and remainder by the page size,
so the two together determine the address.

## Main definitions

* `pteSetFpn`, `pteSetSwap`: the two ways to fill an entry.
* `PagePresent`, `PageSwapped`, `pagingFpn`, `pagingPteSwp`: the ways to read one.
* `pagingPgn`, `pagingOffst`: the two parts of an address.
-/

namespace SimOs

/-- `PAGING_CPU_BUS_WIDTH`. -/
def pagingCpuBusWidth : ℕ := 22

/-- `PAGING_PAGESZ`. -/
def pagingPagesz : ℕ := 256

/-- `PAGING_MAX_PGN`: `DIV_ROUND_UP(BIT(PAGING_CPU_BUS_WIDTH), PAGING_PAGESZ)`. -/
def pagingMaxPgn : ℕ := (2 ^ pagingCpuBusWidth + pagingPagesz - 1) / pagingPagesz

/-- `NBITS2`. -/
def nbits2 (n : ℕ) : ℕ := if n &&& 2 ≠ 0 then 1 else 0

/-- `NBITS4`. -/
def nbits4 (n : ℕ) : ℕ := if n &&& 0xC ≠ 0 then 2 + nbits2 (n >>> 2) else nbits2 n

/-- `NBITS8`. -/
def nbits8 (n : ℕ) : ℕ := if n &&& 0xF0 ≠ 0 then 4 + nbits4 (n >>> 4) else nbits4 n

/-- `NBITS16`. -/
def nbits16 (n : ℕ) : ℕ := if n &&& 0xFF00 ≠ 0 then 8 + nbits8 (n >>> 8) else nbits8 n

/-- `NBITS32`. -/
def nbits32 (n : ℕ) : ℕ := if n &&& 0xFFFF0000 ≠ 0 then 16 + nbits16 (n >>> 16) else nbits16 n

/-- `NBITS`. -/
def nbits (n : ℕ) : ℕ := if n = 0 then 0 else nbits32 n

/-- `BIT`. -/
def bit (nr : ℕ) : BitVec 32 := 1#32 <<< nr

/-- `GENMASK`. -/
def genmask (h l : ℕ) : BitVec 32 :=
  (BitVec.allOnes 32 <<< l) &&& (BitVec.allOnes 32 >>> (32 - h - 1))

/-- `SETBIT`. -/
def setbit (v mask : BitVec 32) : BitVec 32 := v ||| mask

/-- `CLRBIT`. -/
def clrbit (v mask : BitVec 32) : BitVec 32 := v &&& ~~~mask

/-- `SETVAL`. -/
def setval (v value mask : BitVec 32) (offst : ℕ) : BitVec 32 :=
  (v &&& ~~~mask) ||| ((value <<< offst) &&& mask)

/-- `GETVAL`. -/
def getval (v mask : BitVec 32) (offst : ℕ) : BitVec 32 := (v &&& mask) >>> offst

theorem genmask_eq (h l : ℕ) : genmask h l = BitField.mask 32 h l := rfl
theorem setval_eq (v value mask : BitVec 32) (offst : ℕ) :
    setval v value mask offst = BitField.set v value mask offst := rfl

/-! ## Page table entries -/

/-- `PAGING_PTE_PRESENT_MASK`. -/
def pagingPtePresentMask : BitVec 32 := bit 31

/-- `PAGING_PTE_SWAPPED_MASK`. -/
def pagingPteSwappedMask : BitVec 32 := bit 30

/-- `PAGING_PTE_FPN_LOBIT`. -/
def pagingPteFpnLobit : ℕ := 0

/-- `PAGING_PTE_FPN_MASK`. -/
def pagingPteFpnMask : BitVec 32 := genmask 12 pagingPteFpnLobit

/-- `PAGING_PTE_SWPTYP_LOBIT`. -/
def pagingPteSwptypLobit : ℕ := 0

/-- `PAGING_PTE_SWPTYP_MASK`. -/
def pagingPteSwptypMask : BitVec 32 := genmask 4 pagingPteSwptypLobit

/-- `PAGING_PTE_SWPOFF_LOBIT`. -/
def pagingPteSwpoffLobit : ℕ := 5

/-- `PAGING_PTE_SWPOFF_MASK`. -/
def pagingPteSwpoffMask : BitVec 32 := genmask 25 pagingPteSwpoffLobit

/-- `PAGING_SWPFPN_OFFSET`. -/
def pagingSwpfpnOffset : ℕ := 5

/-- `PAGING_PAGE_PRESENT`. -/
def PagePresent (pte : BitVec 32) : Prop := pte &&& pagingPtePresentMask ≠ 0

/-- The swapped bit of an entry. -/
def PageSwapped (pte : BitVec 32) : Prop := pte &&& pagingPteSwappedMask ≠ 0

instance (pte : BitVec 32) : Decidable (PagePresent pte) := inferInstanceAs (Decidable (_ ≠ _))
instance (pte : BitVec 32) : Decidable (PageSwapped pte) := inferInstanceAs (Decidable (_ ≠ _))

/-- `PAGING_FPN`, as an `int`. -/
def pagingFpn (pte : BitVec 32) : ℤ :=
  CInt.sint 32 (getval pte pagingPteFpnMask pagingPteFpnLobit).toNat

/-- `PAGING_PTE_SWP`, as an `int`. -/
def pagingPteSwp (pte : BitVec 32) : ℤ :=
  CInt.sint 32 (getval pte pagingPteSwpoffMask pagingSwpfpnOffset).toNat

/-- `pte_set_swap`. -/
def pteSetSwap (pte : BitVec 32) (swptyp swpoff : ℤ) : BitVec 32 :=
  let pte := setbit pte pagingPtePresentMask
  let pte := setbit pte pagingPteSwappedMask
  let pte := setval pte (BitVec.ofInt 32 swptyp) pagingPteSwptypMask pagingPteSwptypLobit
  setval pte (BitVec.ofInt 32 swpoff) pagingPteSwpoffMask pagingPteSwpoffLobit

/-- `pte_set_fpn`. -/
def pteSetFpn (pte : BitVec 32) (fpn : ℤ) : BitVec 32 :=
  let pte := setbit pte pagingPtePresentMask
  let pte := clrbit pte pagingPteSwappedMask
  setval pte (BitVec.ofInt 32 fpn) pagingPteFpnMask pagingPteFpnLobit

/-! ## Addresses -/

/-- `PAGING_ADDR_OFFST_LOBIT`. -/
def pagingAddrOffstLobit : ℕ := 0

/-- `PAGING_ADDR_OFFST_HIBIT`. -/
def pagingAddrOffstHibit : ℕ := nbits pagingPagesz - 1

/-- `PAGING_ADDR_PGN_LOBIT`. -/
def pagingAddrPgnLobit : ℕ := nbits pagingPagesz

/-- `PAGING_ADDR_PGN_HIBIT`. -/
def pagingAddrPgnHibit : ℕ := pagingCpuBusWidth - 1

/-- `PAGING_ADDR_FPN_LOBIT`. -/
def pagingAddrFpnLobit : ℕ := nbits pagingPagesz

/-- `PAGING_PGN`: the page number of an address. -/
def pagingPgn (addr : ℤ) : ℕ :=
  (getval (BitVec.ofInt 32 addr) (genmask pagingAddrPgnHibit pagingAddrPgnLobit)
    pagingAddrPgnLobit).toNat

/-- `PAGING_OFFST`: the offset of an address in its page. -/
def pagingOffst (addr : ℤ) : ℕ :=
  (getval (BitVec.ofInt 32 addr) (genmask pagingAddrOffstHibit pagingAddrOffstLobit)
    pagingAddrOffstLobit).toNat

/-- The address of a byte of a frame: `(fpn << PAGING_ADDR_FPN_LOBIT) + off`. -/
def physAddr (fpn : ℤ) (off : ℕ) : ℤ := CInt.sint 32 (fpn * 2 ^ pagingAddrFpnLobit + off)

/-! ## Their meaning -/

theorem bit_eq (nr : ℕ) : bit nr = BitVec.twoPow 32 nr := rfl

theorem pagePresent_iff (pte : BitVec 32) : PagePresent pte ↔ pte.getLsbD 31 = true :=
  BitField.and_twoPow_ne_zero (by decide) pte

theorem pageSwapped_iff (pte : BitVec 32) : PageSwapped pte ↔ pte.getLsbD 30 = true :=
  BitField.and_twoPow_ne_zero (by decide) pte

theorem not_pagePresent_zero : ¬ PagePresent 0 := by decide

/-- The bits of an entry filled by `pte_set_fpn`. -/
theorem getLsbD_pteSetFpn (pte : BitVec 32) (fpn : ℤ) {i : ℕ} (hi : i < 32) :
    (pteSetFpn pte fpn).getLsbD i =
      if i ≤ 12 then (BitVec.ofInt 32 fpn).getLsbD i
      else if i = 30 then false else if i = 31 then true else pte.getLsbD i := by
  simp only [pteSetFpn, setval_eq, BitField.getLsbD_set hi, pagingPteFpnMask, genmask_eq,
    BitField.getLsbD_mask (show 12 < 32 by decide), pagingPteFpnLobit, clrbit, setbit,
    pagingPtePresentMask, pagingPteSwappedMask, bit_eq, BitVec.getLsbD_and, BitVec.getLsbD_or,
    BitVec.getLsbD_not, BitVec.getLsbD_twoPow]
  by_cases h12 : i ≤ 12
  · simp [h12]
  · by_cases h30 : i = 30
    · subst h30
      simp
    · by_cases h31 : i = 31
      · subst h31
        simp
      · simp [h12, h30, h31, hi, Ne.symm h30, Ne.symm h31]

/-- The low 13 bits of an entry. -/
theorem pagingFpn_eq (pte : BitVec 32) : pagingFpn pte = (pte.toNat % 2 ^ 13 : ℕ) := by
  have hget : (getval pte pagingPteFpnMask pagingPteFpnLobit).toNat = pte.toNat % 2 ^ 13 := by
    have hfield := BitField.toNat_get_mask (h := 12) (l := 0) (by decide) pte
    rwa [pow_zero, Nat.div_one] at hfield
  rw [pagingFpn, hget]
  exact CInt.sint_eq (by omega) (by omega)

theorem pagingFpn_nonneg (pte : BitVec 32) : 0 ≤ pagingFpn pte := by
  rw [pagingFpn_eq]
  omega

theorem pagingFpn_lt (pte : BitVec 32) : pagingFpn pte < 2 ^ 13 := by
  rw [pagingFpn_eq]
  omega

theorem pagePresent_pteSetFpn (pte : BitVec 32) (fpn : ℤ) : PagePresent (pteSetFpn pte fpn) := by
  rw [pagePresent_iff, getLsbD_pteSetFpn pte fpn (by decide)]
  rfl

theorem not_pageSwapped_pteSetFpn (pte : BitVec 32) (fpn : ℤ) :
    ¬ PageSwapped (pteSetFpn pte fpn) := by
  rw [pageSwapped_iff, getLsbD_pteSetFpn pte fpn (by decide)]
  exact Bool.false_ne_true

/-- **The frame number** of an entry filled by `pte_set_fpn`: what fits the field. -/
theorem pagingFpn_pteSetFpn (pte : BitVec 32) (fpn : ℤ) :
    pagingFpn (pteSetFpn pte fpn) = fpn % 2 ^ 13 := by
  have hget : (getval (pteSetFpn pte fpn) pagingPteFpnMask pagingPteFpnLobit).toNat =
      (BitVec.ofInt 32 fpn).toNat % 2 ^ 13 :=
    BitField.toNat_get_set (h := 12) (l := 0) (by decide) (by decide) _ _
  have hint : ((BitVec.ofInt 32 fpn).toNat : ℤ) = fpn % 2 ^ 32 := by
    rw [BitVec.toNat_ofInt]
    omega
  rw [pagingFpn, hget]
  rw [CInt.sint_eq (by omega) (by omega)]
  omega

/-- The bits of an entry filled by `pte_set_swap`. -/
theorem getLsbD_pteSetSwap (pte : BitVec 32) (swptyp swpoff : ℤ) {i : ℕ} (hi : i < 32) :
    (pteSetSwap pte swptyp swpoff).getLsbD i =
      if i ≤ 4 then (BitVec.ofInt 32 swptyp).getLsbD i
      else if i ≤ 25 then (BitVec.ofInt 32 swpoff).getLsbD (i - 5)
      else decide (30 ≤ i) || pte.getLsbD i := by
  simp only [pteSetSwap, setval_eq, BitField.getLsbD_set hi, pagingPteSwptypMask,
    pagingPteSwpoffMask, genmask_eq, BitField.getLsbD_mask (show 4 < 32 by decide),
    BitField.getLsbD_mask (show 25 < 32 by decide), pagingPteSwptypLobit,
    pagingPteSwpoffLobit, setbit, pagingPtePresentMask,
    pagingPteSwappedMask, bit_eq, BitVec.getLsbD_or, BitVec.getLsbD_twoPow]
  by_cases h4 : i ≤ 4
  · simp [h4, show ¬ 5 ≤ i by omega]
  · by_cases h25 : i ≤ 25
    · simp [h4, h25, show 5 ≤ i by omega]
    · have hctl : i < 30 ∨ i = 30 ∨ i = 31 := by omega
      cases hctl with
      | inl hlt =>
          simp [h4, h25, Nat.not_le.mpr hlt, Nat.ne_of_gt hlt, show 31 ≠ i by omega]
      | inr htop =>
          cases htop with
          | inl h30 => subst h30; simp
          | inr h31 => subst h31; simp

/-- `pte_set_swap` marks the entry as swapped, and as present. -/
theorem pagePresent_pteSetSwap (pte : BitVec 32) (swptyp swpoff : ℤ) :
    PagePresent (pteSetSwap pte swptyp swpoff) := by
  rw [pagePresent_iff, getLsbD_pteSetSwap pte swptyp swpoff (by decide)]
  rfl

theorem pageSwapped_pteSetSwap (pte : BitVec 32) (swptyp swpoff : ℤ) :
    PageSwapped (pteSetSwap pte swptyp swpoff) := by
  rw [pageSwapped_iff, getLsbD_pteSetSwap pte swptyp swpoff (by decide)]
  rfl

/-- **The swap offset** of an entry filled by `pte_set_swap`: what fits the field. -/
theorem pagingPteSwp_pteSetSwap (pte : BitVec 32) (swptyp swpoff : ℤ) :
    pagingPteSwp (pteSetSwap pte swptyp swpoff) = swpoff % 2 ^ 21 := by
  have hget : (getval (pteSetSwap pte swptyp swpoff) pagingPteSwpoffMask
      pagingSwpfpnOffset).toNat = (BitVec.ofInt 32 swpoff).toNat % 2 ^ 21 :=
    BitField.toNat_get_set (h := 25) (l := 5) (by decide) (by decide) _ _
  have hint : ((BitVec.ofInt 32 swpoff).toNat : ℤ) = swpoff % 2 ^ 32 := by
    rw [BitVec.toNat_ofInt]
    omega
  rw [pagingPteSwp, hget]
  rw [CInt.sint_eq (by omega) (by omega)]
  omega

/-- **The page number** of an address of the 22-bit space. -/
theorem pagingPgn_eq {addr : ℤ} (h0 : 0 ≤ addr) (hlt : addr < 2 ^ 22) :
    (pagingPgn addr : ℤ) = addr / 256 := by
  have hget : pagingPgn addr = (BitVec.ofInt 32 addr).toNat / 2 ^ 8 % 2 ^ 14 :=
    BitField.toNat_get_mask (h := 21) (l := 8) (by decide) _
  rw [hget, BitVec.toNat_ofInt]
  omega

/-- **The offset** of an address. -/
theorem pagingOffst_eq (addr : ℤ) : (pagingOffst addr : ℤ) = addr % 256 := by
  have hget : pagingOffst addr = (BitVec.ofInt 32 addr).toNat / 2 ^ 0 % 2 ^ 8 :=
    BitField.toNat_get_mask (h := 7) (l := 0) (by decide) _
  rw [hget, BitVec.toNat_ofInt]
  omega

theorem pagingPgn_lt (addr : ℤ) : pagingPgn addr < pagingMaxPgn := by
  have hget : pagingPgn addr = (BitVec.ofInt 32 addr).toNat / 2 ^ 8 % 2 ^ 14 :=
    BitField.toNat_get_mask (h := 21) (l := 8) (by decide) _
  rw [hget]
  exact Nat.mod_lt _ (by decide)

theorem pagingOffst_lt (addr : ℤ) : pagingOffst addr < pagingPagesz := by
  have := pagingOffst_eq addr
  have hmod := Int.emod_lt_of_pos addr (show (0 : ℤ) < 256 by decide)
  simp only [pagingPagesz]
  omega

/-- Page number and offset determine the address. -/
theorem eq_of_pgn_offst {a b : ℤ} (ha0 : 0 ≤ a) (ha : a < 2 ^ 22) (hb0 : 0 ≤ b)
    (hb : b < 2 ^ 22) (hpgn : pagingPgn a = pagingPgn b) (hoff : pagingOffst a = pagingOffst b) :
    a = b := by
  have h₁ := pagingPgn_eq ha0 ha
  have h₂ := pagingPgn_eq hb0 hb
  have h₃ := pagingOffst_eq a
  have h₄ := pagingOffst_eq b
  rw [hpgn] at h₁
  rw [hoff] at h₃
  omega

/-- The bytes of frame `fpn` are a run of `PAGING_PAGESZ` addresses. -/
theorem physAddr_eq {fpn : ℤ} {off : ℕ} (h0 : 0 ≤ fpn) (hlt : fpn < 2 ^ 13)
    (hoff : off < pagingPagesz) : physAddr fpn off = fpn * 256 + off := by
  have hlobit : (2 : ℤ) ^ pagingAddrFpnLobit = 256 := by decide
  simp only [pagingPagesz] at hoff
  rw [physAddr, hlobit]
  exact CInt.sint_eq (by omega) (by omega)

/-- Bytes of different frames are apart. -/
theorem physAddr_ne {fpn fpn' : ℤ} {off off' : ℕ} (h0 : 0 ≤ fpn) (hlt : fpn < 2 ^ 13)
    (h0' : 0 ≤ fpn') (hlt' : fpn' < 2 ^ 13) (hoff : off < pagingPagesz)
    (hoff' : off' < pagingPagesz) (hne : fpn ≠ fpn') : physAddr fpn off ≠ physAddr fpn' off' := by
  rw [physAddr_eq h0 hlt hoff, physAddr_eq h0' hlt' hoff']
  simp only [pagingPagesz] at hoff hoff'
  omega

end SimOs
