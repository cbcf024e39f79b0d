import SimOs.Mm.Calls

/-!
# Checks of the region id

Four entry points take a region id, and guard the 30 entries of the symbol table in three
ways.  `__free` compares with the size of the table.  `__read` and `__write` rely on
`get_symrg_byid`, which lets id 30 through.  `__alloc` does not look at the id at all.

An access outside the table is undefined, and so `none` here.

## Main definitions

* `EntryPoint`, `enter`: a call with a region id.
* `KeepsOut`: the call returns an error, and changes nothing.
* `accessAddr`: the address of an access, which `libwrite_symbol` and `read_symbol` reach.
* `keeps_out_iff`: which calls with an id outside the table are refused.
-/

namespace SimOs.Libmem

/-- An entry point with its arguments other than the region id. -/
inductive EntryPoint
  | liballoc (size : ℤ)
  | libfree
  | libread (offset : ℤ)
  | libwrite (data : BYTE) (offset : ℤ)
  deriving DecidableEq

/-- The call, without the values it returns. -/
def enter (fresh : Fresh) (c : Caller) (rgid : ℤ) : EntryPoint → Option (Ret Unit × Caller)
  | .liballoc size => (liballoc fresh c size rgid).map fun r => (r.1.map fun _ => (), r.2)
  | .libfree => libfree c rgid
  | .libread offset => (libread c rgid offset).map fun r => (r.1.map fun _ => (), r.2)
  | .libwrite data offset => libwrite c data rgid offset

/-- The call returns an error and changes nothing. -/
def KeepsOut (fresh : Fresh) (c : Caller) (rgid : ℤ) (e : EntryPoint) : Prop :=
  enter fresh c rgid e = some (.err, c)

/-- The entry points that refuse the id. -/
def EntryPoint.Guards (rgid : ℤ) : EntryPoint → Prop
  | .liballoc _ => False
  | .libfree => True
  | .libread _ => rgid ≠ pagingMaxSymtblSz
  | .libwrite _ _ => rgid ≠ pagingMaxSymtblSz

/-- The process has an area for `vmaid` 0. -/
def HasArea (mm : Mm) : Prop := ∃ k, getVmaByNum mm 0 = some (some k)

theorem Area.hasArea {mm : Mm} {vma : VmArea} (h : Area mm vma) : HasArea mm :=
  ⟨0, h.getVmaByNum⟩

/-- The address of an access through an id of the symbol table. -/
def accessAddr (c : Caller) (rgid offset : ℤ) : ℤ :=
  CInt.sint 32 ((c.mm.symrgtbl rgid).rgStart + CInt.sint 32 offset)

/-- The conversion to `int` keeps an id outside the table outside, and 30 apart. -/
theorem sint_outside {rgid : ℤ} (h0 : 0 ≤ rgid) (hlt : rgid < 2 ^ 32) (hout : ¬ IsSymbol rgid) :
    ¬ IsSymbol (CInt.sint 32 rgid) ∧
      (CInt.sint 32 rgid = pagingMaxSymtblSz ↔ rgid = pagingMaxSymtblSz) := by
  have hge : 30 ≤ rgid := by
    by_contra hsmall
    exact hout ⟨h0, by rw [pagingMaxSymtblSz]; omega⟩
  have hcases : CInt.sint 32 rgid = rgid ∨ CInt.sint 32 rgid < 0 ∧ 2 ^ 31 ≤ rgid := by
    rw [CInt.sint, Int.bmod_def]
    split <;> omega
  simp only [IsSymbol, pagingMaxSymtblSz]
  omega

section

variable {fresh : Fresh} {c : Caller} {rgid : ℤ}

theorem printPgtbl_of_hasArea (harea : HasArea c.mm) : printPgtbl c = some () := by
  obtain ⟨k, hk⟩ := harea
  rw [printPgtbl, hk]
  rfl

/-! ## Ids in the table -/

theorem regionAddr_symbol (harea : HasArea c.mm) (hid : IsSymbol rgid) (offset : ℤ) :
    regionAddr c 0 (CInt.sint 32 rgid) (CInt.sint 32 offset) =
      some (some (accessAddr c rgid offset)) := by
  have hrange : ¬ (rgid < 0 ∨ rgid > pagingMaxSymtblSz) := by
    obtain ⟨h0, hlt⟩ := hid
    omega
  obtain ⟨k, hk⟩ := harea
  rw [hid.sint, regionAddr, getSymrgByid, if_neg hrange, if_pos hid, hk]
  rfl

/-- **`libwrite`** through an id of the table. -/
theorem libwrite_symbol (harea : HasArea c.mm) (hid : IsSymbol rgid) (data : BYTE)
    (offset : ℤ) : libwrite c data rgid offset = pgSetval c (accessAddr c rgid offset) data := by
  rw [libwrite, printPgtbl_of_hasArea harea, Option.bind_some, write,
    regionAddr_symbol harea hid, Option.bind_some]

theorem read_symbol (harea : HasArea c.mm) (hid : IsSymbol rgid) (offset : ℤ) :
    read c 0 (CInt.sint 32 rgid) (CInt.sint 32 offset) =
      pgGetval c (accessAddr c rgid offset) := by
  rw [read, regionAddr_symbol harea hid, Option.bind_some]

/-- **`libread`** through an id of the table, if the access fails. -/
theorem libread_symbol_err (harea : HasArea c.mm) (hid : IsSymbol rgid) {offset : ℤ}
    {c' : Caller} (h : pgGetval c (accessAddr c rgid offset) = some (.err, c')) :
    libread c rgid offset = some (.err, c') := by
  unfold libread
  rw [read_symbol harea hid, h]

/-- **`libread`** through an id of the table, if it costs no fault. -/
theorem libread_symbol_ok (harea : HasArea c.mm) (hid : IsSymbol rgid) {offset : ℤ} {data : BYTE}
    (h : pgGetval c (accessAddr c rgid offset) = some (.ok data, c)) :
    libread c rgid offset = some (.ok (data.signExtend 32), c) := by
  unfold libread
  rw [read_symbol harea hid, h]
  simp only [printPgtbl_of_hasArea harea, Option.map_some]

/-! ## Ids outside the table -/

/-- **`get_symrg_byid`** refuses every id outside the table but 30. -/
theorem getSymrgByid_outside (mm : Mm) (hout : ¬ IsSymbol rgid) :
    getSymrgByid mm rgid = if rgid = pagingMaxSymtblSz then none else some none := by
  rw [getSymrgByid]
  by_cases hid : rgid = pagingMaxSymtblSz
  · rw [if_pos hid, if_neg hout, if_neg]
    rw [hid, pagingMaxSymtblSz]
    decide
  · rw [if_neg hid, if_pos]
    rw [IsSymbol] at hout
    omega

/-- **`__alloc`** never refuses an id outside the table: if it gets so far, it writes past
the table. -/
theorem alloc_outside (harea : HasArea c.mm) (hout : ¬ IsSymbol rgid) (size : ℤ) :
    ∀ r c', alloc fresh c 0 rgid size = some (r, c') → r ≠ .err := by
  obtain ⟨k, hk⟩ := harea
  intro r c' h
  rw [alloc] at h
  split at h
  · cases h
  · next rg hrg => exact absurd hrg (getFreeVmrgArea_ne_ok _ _ _ _)
  · rw [hk] at h
    obtain ⟨vma, -, h⟩ := Option.bind_eq_some_iff.mp h
    simp only at h
    split at h
    · cases h
    · obtain ⟨rfl, -⟩ := Prod.mk.inj (Option.some.inj h)
      simp
    · obtain ⟨mm, -, h⟩ := Option.bind_eq_some_iff.mp h
      simp only [setSymrg, if_neg hout, Option.map_none] at h
      cases h

/-- **`__free`** refuses it. -/
theorem free_outside (hout : ¬ IsSymbol rgid) (vmaid : ℤ) : free c vmaid rgid = some (.err, c) :=
  if_pos hout

/-- The address of an access through an id outside the table. -/
theorem regionAddr_outside (harea : HasArea c.mm) (hout : ¬ IsSymbol rgid) (offset : ℤ) :
    regionAddr c 0 rgid offset = if rgid = pagingMaxSymtblSz then none else some none := by
  obtain ⟨k, hk⟩ := harea
  rw [regionAddr, getSymrgByid_outside c.mm hout, hk]
  split <;> rfl

/-- **`libread`** refuses it unless it is 30. -/
theorem libread_outside (harea : HasArea c.mm) (hout : ¬ IsSymbol (CInt.sint 32 rgid))
    (offset : ℤ) : libread c rgid offset =
      if CInt.sint 32 rgid = pagingMaxSymtblSz then none else some (.err, c) := by
  unfold libread
  rw [read, regionAddr_outside harea hout]
  by_cases hid : CInt.sint 32 rgid = pagingMaxSymtblSz
  · simp only [if_pos hid, Option.bind_none]
  · simp only [if_neg hid, Option.bind_some]

/-- **`libwrite`** refuses it unless it is 30. -/
theorem libwrite_outside (harea : HasArea c.mm) (hout : ¬ IsSymbol (CInt.sint 32 rgid))
    (data : BYTE) (offset : ℤ) : libwrite c data rgid offset =
      if CInt.sint 32 rgid = pagingMaxSymtblSz then none else some (.err, c) := by
  rw [libwrite, printPgtbl_of_hasArea harea, Option.bind_some, write,
    regionAddr_outside harea hout]
  by_cases hid : CInt.sint 32 rgid = pagingMaxSymtblSz
  · simp only [if_pos hid, Option.bind_none]
  · simp only [if_neg hid, Option.bind_some]

/-- **Which calls keep an id out** that is outside the table: those of `libfree`, and those
of `libread` and `libwrite` unless the id is 30. -/
theorem keeps_out_iff (harea : HasArea c.mm) (h0 : 0 ≤ rgid) (hlt : rgid < 2 ^ 32)
    (hout : ¬ IsSymbol rgid) (e : EntryPoint) :
    KeepsOut fresh c rgid e ↔ e.Guards rgid := by
  obtain ⟨hout', h30⟩ := sint_outside h0 hlt hout
  cases e with
  | liballoc size =>
      refine iff_of_false ?_ id
      intro hkeeps
      obtain ⟨⟨r, c'⟩, hr, heq⟩ := Option.map_eq_some_iff.mp hkeeps
      have hok := alloc_outside harea hout' _ r c' hr
      cases r with
      | err => exact hok rfl
      | ok addr => cases heq
  | libfree => exact iff_of_true (free_outside hout' 0) trivial
  | libread offset =>
      simp only [KeepsOut, enter, libread_outside harea hout', EntryPoint.Guards, ne_eq, ← h30]
      by_cases hid : CInt.sint 32 rgid = pagingMaxSymtblSz
      · simp [hid]
      · simp [hid, Ret.map]
  | libwrite data offset =>
      simp only [KeepsOut, enter, libwrite_outside harea hout', EntryPoint.Guards, ne_eq, ← h30]
      by_cases hid : CInt.sint 32 rgid = pagingMaxSymtblSz
      · simp [hid]
      · simp [hid]

end

/-- A process after `init_mm`, on two devices of one frame. -/
def newProc : Caller where
  mm := initMm .zeroed
  dev _ := ⟨fun _ => 0, 256, true, 0, .ofList [0]⟩

theorem keeps_out_iff_newProc :
    KeepsOut .zeroed newProc 31 (.libread 0) ∧ ¬ KeepsOut .zeroed newProc 30 (.libread 0) := by
  have harea : HasArea newProc.mm := Area.hasArea ⟨rfl, rfl⟩
  constructor
  · apply (keeps_out_iff harea (by decide) (by decide) (by decide) (.libread 0)).mpr
    exact show (31 : ℤ) ≠ pagingMaxSymtblSz by decide
  · intro hkeeps
    exact (keeps_out_iff harea (by decide) (by decide) (by decide) (.libread 0)).mp hkeeps rfl

/-- **Ids that get through**: id 30 in a read, and id 31 in an allocation. -/
theorem ids_get_through :
    ¬ IsSymbol 30 ∧ ¬ KeepsOut .zeroed newProc 30 (.libread 0) ∧
      ¬ IsSymbol 31 ∧ ¬ KeepsOut .zeroed newProc 31 (.liballoc 100) := by
  have hread : enter .zeroed newProc 30 (.libread 0) = none := by decide +kernel
  have halloc : enter .zeroed newProc 31 (.liballoc 100) = none := by decide +kernel
  refine ⟨by decide, ?_, by decide, ?_⟩
  · rw [KeepsOut, hread]
    simp
  · rw [KeepsOut, halloc]
    simp

end SimOs.Libmem
