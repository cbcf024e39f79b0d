import SimOs.Common
import SimOs.Lib.Words
import SimOs.Lib.Chain
import SimOs.Mm.Pte
import Mathlib.Logic.Function.Iterate

/-!
# Physical memory

A device of `mm-memphy.c`: an array of `maxsz` bytes and a list of free frames.
An access outside the array, or through a pointer that was never set, is undefined,
and so is `none` here.  `os.c` creates every device as a random access one; the
sequential paths refuse every access, since `MEMPHY_seq_read` is called only if
`rdmflg` is off and fails exactly then.

A block that `malloc` returns has unknown contents, which are parameters: `fpNext` is
what the field `fp_next` of a new `framephy_struct` holds.

## Main definitions

* `Memphy`: `struct memphy_struct`.
* `read`, `write`, `getFreefp`, `putFreefp`, `format`, `initMemphy`: its functions.
* `Dev`, `swapCpPage`: the two devices a process uses and the copy between frames.
-/

namespace SimOs

/-- `struct memphy_struct`. -/
structure Memphy where
  storage : ℤ → BYTE
  maxsz : ℤ
  rdmflg : Bool
  cursor : ℤ
  freeFpList : Chain ℤ

namespace Memphy

/-- The cells of `storage`. -/
def InRange (mp : Memphy) (addr : ℤ) : Prop := 0 ≤ addr ∧ addr < mp.maxsz

instance (mp : Memphy) (addr : ℤ) : Decidable (mp.InRange addr) :=
  inferInstanceAs (Decidable (_ ∧ _))

/-- `*value = mp->storage[addr]`. -/
def load (mp : Memphy) (addr : ℤ) : Option (Ret BYTE × Memphy) :=
  if mp.InRange addr then some (.ok (mp.storage addr), mp) else none

/-- `mp->storage[addr] = data`. -/
def store (mp : Memphy) (addr : ℤ) (data : BYTE) : Option (Ret Unit × Memphy) :=
  if mp.InRange addr then
    some (.ok (), { mp with storage := Function.update mp.storage addr data })
  else none

/-- `MEMPHY_mv_csr`. -/
def mvCsr (mp : Memphy) (offset : ℤ) : Memphy :=
  { mp with cursor := (fun c => (c + 1) % mp.maxsz)^[(min offset mp.maxsz).toNat] 0 }

/-- `MEMPHY_seq_read`. -/
def seqRead (mp : Memphy) (addr : ℤ) : Option (Ret BYTE × Memphy) :=
  if mp.rdmflg then (mp.mvCsr addr).load addr else some (.err, mp)

/-- `MEMPHY_read`. -/
def read (mp : Memphy) (addr : ℤ) : Option (Ret BYTE × Memphy) :=
  if mp.rdmflg then mp.load addr else mp.seqRead addr

/-- `MEMPHY_seq_write`. -/
def seqWrite (mp : Memphy) (addr : ℤ) (data : BYTE) : Option (Ret Unit × Memphy) :=
  if mp.rdmflg then (mp.mvCsr addr).store addr data else some (.err, mp)

/-- `MEMPHY_write`. -/
def write (mp : Memphy) (addr : ℤ) (data : BYTE) : Option (Ret Unit × Memphy) :=
  if mp.rdmflg then mp.store addr data else mp.seqWrite addr data

/-- `MEMPHY_get_freefp`. -/
def getFreefp (mp : Memphy) : Option (Ret ℤ × Memphy) :=
  match mp.freeFpList with
  | .null => some (.err, mp)
  | .wild => none
  | .node fpn next => some (.ok fpn, { mp with freeFpList := next })

/-- `MEMPHY_put_freefp`. -/
def putFreefp (mp : Memphy) (fpn : ℤ) : Memphy :=
  { mp with freeFpList := .node fpn mp.freeFpList }

/-- The frames `1` to `numfp - 1` that the loop of `MEMPHY_format` appends. -/
def laterFrames (numfp : ℕ) : List ℤ := (List.range (numfp - 1)).map fun k : ℕ => (k : ℤ) + 1

/-- `MEMPHY_format`.  Only the nodes of the loop get their `fp_next` set, so a device of
one frame keeps what the first node's `fp_next` held. -/
def format (fpNext : Chain ℤ) (mp : Memphy) (pagesz : ℤ) : Ret Unit × Memphy :=
  let numfp := mp.maxsz / pagesz
  if numfp ≤ 0 then (.err, mp)
  else
    let rest := if numfp ≤ 1 then fpNext else Chain.ofList (laterFrames numfp.toNat)
    (.ok (), { mp with freeFpList := .node 0 rest })

/-- `init_memphy`, over what the structure held before. -/
def initMemphy (fpNext : Chain ℤ) (old : Memphy) (maxSize : ℤ) (randomflg : Bool) : Memphy :=
  let mp : Memphy := { old with storage := fun _ => 0, maxsz := maxSize }
  let mp := (mp.format fpNext pagingPagesz).2
  { mp with rdmflg := randomflg, cursor := if randomflg then mp.cursor else 0 }

/-! ## Random access devices -/

theorem read_eq_some {mp mp' : Memphy} {addr : ℤ} {r : Ret BYTE}
    (h : mp.read addr = some (r, mp')) :
    mp' = mp ∧ (r = .err ∨ mp.InRange addr ∧ r = .ok (mp.storage addr)) := by
  rw [read] at h
  split at h
  · rw [load] at h
    split at h
    · next hin =>
        obtain ⟨rfl, rfl⟩ := Prod.mk.inj (Option.some.inj h)
        exact ⟨rfl, Or.inr ⟨hin, rfl⟩⟩
    · cases h
  · next hflag =>
      rw [seqRead, if_neg hflag] at h
      obtain ⟨rfl, rfl⟩ := Prod.mk.inj (Option.some.inj h)
      exact ⟨rfl, Or.inl rfl⟩

/-- A write changes the one cell, or nothing. -/
theorem write_eq_some {mp mp' : Memphy} {addr : ℤ} {data : BYTE} {r : Ret Unit}
    (h : mp.write addr data = some (r, mp')) :
    r = .err ∧ mp' = mp ∨ r = .ok () ∧ mp.InRange addr ∧
      mp' = { mp with storage := Function.update mp.storage addr data } := by
  rw [write] at h
  split at h
  · rw [store] at h
    split at h
    · next hin =>
        obtain ⟨rfl, rfl⟩ := Prod.mk.inj (Option.some.inj h)
        exact Or.inr ⟨rfl, hin, rfl⟩
    · cases h
  · next hflag =>
      rw [seqWrite, if_neg hflag] at h
      obtain ⟨rfl, rfl⟩ := Prod.mk.inj (Option.some.inj h)
      exact Or.inl ⟨rfl, rfl⟩

theorem read_of_inRange {mp : Memphy} {addr : ℤ} (hflag : mp.rdmflg = true)
    (hin : mp.InRange addr) : mp.read addr = some (.ok (mp.storage addr), mp) := by
  rw [read, if_pos hflag, load, if_pos hin]

theorem write_of_inRange {mp : Memphy} {addr : ℤ} (hflag : mp.rdmflg = true)
    (hin : mp.InRange addr) (data : BYTE) :
    mp.write addr data =
      some (.ok (), { mp with storage := Function.update mp.storage addr data }) := by
  rw [write, if_pos hflag, store, if_pos hin]

/-- `MEMPHY_get_freefp` on an empty list. -/
theorem getFreefp_nil {mp : Memphy} (h : mp.freeFpList = Chain.ofList []) :
    mp.getFreefp = some (.err, mp) := by
  rw [getFreefp, h]
  rfl

/-- `MEMPHY_get_freefp` takes the first frame. -/
theorem getFreefp_cons {mp : Memphy} {fpn : ℤ} {rest : List ℤ}
    (h : mp.freeFpList = Chain.ofList (fpn :: rest)) :
    mp.getFreefp = some (.ok fpn, { mp with freeFpList := Chain.ofList rest }) := by
  rw [getFreefp, h]
  rfl

/-- Frame `fpn` lies wholly inside the device. -/
def FrameInside (mp : Memphy) (fpn : ℤ) : Prop :=
  0 ≤ fpn ∧ (fpn + 1) * pagingPagesz ≤ mp.maxsz

instance (mp : Memphy) (fpn : ℤ) : Decidable (mp.FrameInside fpn) :=
  inferInstanceAs (Decidable (_ ∧ _))

end Memphy

/-! ## Copying between devices -/

/-- The devices of a process: `mram` and `active_mswp`. -/
inductive Dev
  | mram
  | activeMswp
  deriving DecidableEq

/-- The bytes of a frame. -/
def cellAddr (fpn : ℤ) (cellidx : ℕ) : ℤ := CInt.sint 32 (fpn * pagingPagesz + cellidx)

theorem cellAddr_eq (fpn : ℤ) (cellidx : ℕ) : cellAddr fpn cellidx = physAddr fpn cellidx := rfl

/-- One trip of the loop of `__swap_cp_page`.  If the read fails, `data` is used
uninitialised, which is undefined. -/
def swapCpCell (dev : Dev → Memphy) (mpsrc : Dev) (srcfpn : ℤ) (mpdst : Dev) (dstfpn : ℤ)
    (cellidx : ℕ) : Option (Dev → Memphy) :=
  match (dev mpsrc).read (cellAddr srcfpn cellidx) with
  | some (.ok data, mp) =>
      let dev := Function.update dev mpsrc mp
      ((dev mpdst).write (cellAddr dstfpn cellidx) data).map fun r =>
        Function.update dev mpdst r.2
  | _ => none

/-- The first `n` trips of the loop of `__swap_cp_page`. -/
def swapCpCells (dev : Dev → Memphy) (mpsrc : Dev) (srcfpn : ℤ) (mpdst : Dev) (dstfpn : ℤ) :
    ℕ → Option (Dev → Memphy)
  | 0 => some dev
  | n + 1 => (swapCpCells dev mpsrc srcfpn mpdst dstfpn n).bind fun dev =>
      swapCpCell dev mpsrc srcfpn mpdst dstfpn n

/-- `__swap_cp_page`. -/
def swapCpPage (dev : Dev → Memphy) (mpsrc : Dev) (srcfpn : ℤ) (mpdst : Dev) (dstfpn : ℤ) :
    Option (Dev → Memphy) :=
  swapCpCells dev mpsrc srcfpn mpdst dstfpn pagingPagesz

/-- A device and another that differ at most in the cells of frame `fpn`. -/
structure SameBut (fpn : ℤ) (mp mp' : Memphy) : Prop where
  maxsz : mp'.maxsz = mp.maxsz
  rdmflg : mp'.rdmflg = mp.rdmflg
  freeFpList : mp'.freeFpList = mp.freeFpList
  storage : ∀ addr, (∀ k, k < pagingPagesz → addr ≠ cellAddr fpn k) →
    mp'.storage addr = mp.storage addr

theorem SameBut.refl (fpn : ℤ) (mp : Memphy) : SameBut fpn mp mp :=
  ⟨rfl, rfl, rfl, fun _ _ => rfl⟩

theorem SameBut.trans {fpn : ℤ} {mp₁ mp₂ mp₃ : Memphy} (h : SameBut fpn mp₁ mp₂)
    (h' : SameBut fpn mp₂ mp₃) : SameBut fpn mp₁ mp₃ :=
  ⟨h'.maxsz.trans h.maxsz, h'.rdmflg.trans h.rdmflg, h'.freeFpList.trans h.freeFpList,
    fun addr hout => (h'.storage addr hout).trans (h.storage addr hout)⟩

/-- **The frame of a copy**: `__swap_cp_page` changes nothing but the cells of the
destination frame. -/
theorem swapCpCells_sameBut {dev dev' : Dev → Memphy} {mpsrc mpdst : Dev} {srcfpn dstfpn : ℤ}
    {n : ℕ} (hn : n ≤ pagingPagesz)
    (h : swapCpCells dev mpsrc srcfpn mpdst dstfpn n = some dev') :
    SameBut dstfpn (dev mpdst) (dev' mpdst) ∧ ∀ d, d ≠ mpdst → dev' d = dev d := by
  induction n generalizing dev' with
  | zero =>
      obtain rfl := Option.some.inj h
      exact ⟨SameBut.refl dstfpn _, fun _ _ => rfl⟩
  | succ n ih =>
      obtain ⟨mid, hmid, hcell⟩ := Option.bind_eq_some_iff.mp h
      obtain ⟨hsame, hother⟩ := ih (by omega) hmid
      rw [swapCpCell] at hcell
      split at hcell
      · next data mp hread =>
          obtain ⟨rfl, -⟩ := Memphy.read_eq_some hread
          obtain ⟨⟨r, mp'⟩, hwrite, rfl⟩ := Option.map_eq_some_iff.mp hcell
          rw [Function.update_eq_self] at hwrite ⊢
          refine ⟨hsame.trans ?_, fun d hd => ?_⟩
          · rw [Function.update_self]
            rcases Memphy.write_eq_some hwrite with ⟨-, rfl⟩ | ⟨-, -, rfl⟩
            · exact SameBut.refl dstfpn _
            · refine ⟨rfl, rfl, rfl, ?_⟩
              intro addr hout
              exact Function.update_of_ne (hout n (by omega)) _ _
          · rw [Function.update_of_ne hd]
            exact hother d hd
      · cases hcell

theorem swapCpPage_sameBut {dev dev' : Dev → Memphy} {mpsrc mpdst : Dev} {srcfpn dstfpn : ℤ}
    (h : swapCpPage dev mpsrc srcfpn mpdst dstfpn = some dev') :
    SameBut dstfpn (dev mpdst) (dev' mpdst) ∧ ∀ d, d ≠ mpdst → dev' d = dev d :=
  swapCpCells_sameBut le_rfl h

end SimOs
