import SimOs.Mm.RegionBounds
import SimOs.Os.Killall

/-!
# The name that `killall` reads

`__sys_killall` reads bytes from a region into `proc_name` until it reads -1, or a read
fails.  Nothing else ends the loop: neither the size of `proc_name` nor a zero byte.
Nor does anything bound the number of victims, which `kill_process` has to hold.

The name is compared with the last component of the path that `load` stored.  `load`
bounds the copy by the size of a pointer instead of that of the field, so that only
five bytes of the name are left.

## Main definitions

* `NameRead`: what the reads deliver.
* `InBuffers`, `in_buffers_iff`: when the call stays in its buffers.
* `RegionResident`, `nameRead_resident`: the condition on the bytes, if they are resident.
* `Selects`, `selects_iff`: when the comparison is right.
-/

namespace SimOs.Os

open Libmem

/-! ## The reads -/

/-- Reads from offset `i` on deliver the bytes `name`, until one fails or delivers -1. -/
inductive NameRead (memrg : ℤ) : ℕ → Caller → List BYTE → Caller → Prop
  | failed {i : ℕ} {c c' : Caller} (h : libread c memrg i = some (.err, c')) :
      NameRead memrg i c [] c'
  | stop {i : ℕ} {c c' : Caller} (h : libread c memrg i = some (.ok (-1), c')) :
      NameRead memrg i c [] c'
  | byte {i : ℕ} {c c₁ c' : Caller} {data : BitVec 32} {name : List BYTE}
      (h : libread c memrg i = some (.ok data, c₁)) (hne : data ≠ -1)
      (rest : NameRead memrg (i + 1) c₁ name c') :
      NameRead memrg i c (data.setWidth 8 :: name) c'

/-- **The loop returns** exactly if the name and its end fit into what is left of
`proc_name`. -/
theorem readNameLoop_eq_some {memrg : ℤ} {room i : ℕ} {procName buf : List BYTE}
    {c c' : Caller} :
    readNameLoop memrg room i procName c = some (buf, c') ↔
      ∃ name, NameRead memrg i c name c' ∧ name.length < room ∧ buf = procName ++ name ++ [0] := by
  induction room generalizing i procName c with
  | zero =>
      constructor
      · intro h
        cases h
      · rintro ⟨name, -, hlt, -⟩
        exact absurd hlt (Nat.not_lt_zero _)
  | succ room ih =>
      unfold readNameLoop
      constructor
      · intro h
        split at h
        · cases h
        · next c₁ hread =>
            obtain ⟨rfl, rfl⟩ := Prod.mk.inj (Option.some.inj h)
            exact ⟨[], .failed hread, Nat.succ_pos room, by rw [List.append_nil]⟩
        · next data c₁ hread =>
            split at h
            · next hstop =>
                obtain ⟨rfl, rfl⟩ := Prod.mk.inj (Option.some.inj h)
                exact ⟨[], .stop (hstop ▸ hread), Nat.succ_pos room, by rw [List.append_nil]⟩
            · next hne =>
                obtain ⟨name, hrest, hlt, rfl⟩ := ih.mp h
                refine ⟨data.setWidth 8 :: name, .byte hread hne hrest, Nat.succ_lt_succ hlt, ?_⟩
                simp
      · rintro ⟨name, hname, hlt, rfl⟩
        cases hname with
        | failed hread =>
            rw [hread]
            simp
        | stop hread =>
            rw [hread]
            simp
        | byte hread hne hrest =>
            rw [hread]
            simp only [if_neg hne]
            exact ih.mpr ⟨_, hrest, Nat.lt_of_succ_lt_succ hlt, by simp⟩

/-- The terminator is not part of the string. -/
theorem ofBuffer_concat (name : List BYTE) :
    CString.ofBuffer 0 (name ++ [0]) = CString.ofBuffer 0 name := by
  induction name with
  | nil => rfl
  | cons b name ih =>
      simp only [CString.ofBuffer, List.cons_append, List.takeWhile_cons] at ih ⊢
      rw [ih]

/-- **`proc_name`** after the loop. -/
theorem readName_eq_some {c c' : Caller} {memrg : ℤ} {procName : List BYTE} :
    readName c memrg = some (procName, c') ↔
      ∃ name, NameRead memrg 0 c name c' ∧ name.length < procNameSize ∧
        procName = CString.ofBuffer 0 name := by
  rw [readName, Option.map_eq_some_iff]
  constructor
  · rintro ⟨⟨buf, c₁⟩, hloop, heq⟩
    obtain ⟨rfl, rfl⟩ := Prod.mk.inj heq
    obtain ⟨name, hname, hlt, rfl⟩ := readNameLoop_eq_some.mp hloop
    exact ⟨name, hname, hlt, by rw [List.nil_append, ofBuffer_concat]⟩
  · rintro ⟨name, hname, hlt, rfl⟩
    refine ⟨(name ++ [0], c'), readNameLoop_eq_some.mpr ⟨name, hname, hlt, rfl⟩, ?_⟩
    rw [ofBuffer_concat]

/-! ## The buffers -/

/-- The name is read, and the victims are found, without an access past the end of
`proc_name` or of `kill_process`. -/
def InBuffers (k : Kernel) (caller : ℕ) (a1 : BitVec 32) : Prop :=
  ∃ procName c r, readName (k.mem.caller caller) a1.toNat = some (procName, c) ∧
    findVictims { k with mem := k.mem.put caller c } procName = some r

/-- **When `killall` stays in its buffers**: if the name is shorter than 100 bytes and has an
end, and at most 140 entries of the lists are processes of that name. -/
theorem in_buffers_iff (k : Kernel) (caller : ℕ) (a1 : BitVec 32) :
    InBuffers k caller a1 ↔
      ∃ name c, NameRead a1.toNat 0 (k.mem.caller caller) name c ∧ name.length < procNameSize ∧
        (victims k (CString.ofBuffer 0 name)).length ≤ maxPrio := by
  constructor
  · rintro ⟨procName, c, r, hread, hvictims⟩
    obtain ⟨name, hname, hlt, rfl⟩ := readName_eq_some.mp hread
    rw [findVictims_eq] at hvictims
    split at hvictims
    · next hroom => exact ⟨name, c, hname, hlt, hroom⟩
    · cases hvictims
  · rintro ⟨name, c, hname, hlt, hroom⟩
    have hvictims := findVictims_eq { k with mem := k.mem.put caller c } (CString.ofBuffer 0 name)
    exact ⟨_, c, _, readName_eq_some.mpr ⟨name, hname, hlt, rfl⟩, hvictims.trans (if_pos hroom)⟩

/-- **A name without an end**: a region of 100 zero bytes, on a page of 256. -/
theorem endless_name : ¬ InBuffers (smallKernel (List.replicate 256 0) []) 0 1 := by
  have hnone : readName ((smallKernel (List.replicate 256 0) []).mem.caller 0)
      (1 : BitVec 32).toNat = none := by decide +kernel
  rintro ⟨procName, c, r, hread, -⟩
  cases hnone.symm.trans hread

/-! ## Memory that is resident -/

/-- Every address of the region up to offset `n` is on a page that is present, in a random
access RAM that has the byte. -/
structure RegionResident (c : Caller) (memrg : ℤ) (n : ℕ) : Prop where
  symbol : IsSymbol memrg
  area : HasArea c.mm
  random : (c.dev .mram).rdmflg = true
  present : ∀ j < n, PagePresent (c.mm.pgd (pagingPgn (accessAddr c memrg j)))
  inRange : ∀ j < n, (c.dev .mram).InRange
    (physAddr (pagingFpn (c.mm.pgd (pagingPgn (accessAddr c memrg j))))
      (pagingOffst (accessAddr c memrg j)))

section

variable {c : Caller} {memrg : ℤ} {n : ℕ}

/-- A read of such a byte changes nothing. -/
theorem RegionResident.libread (h : RegionResident c memrg n) {j : ℕ} (hj : j < n) :
    libread c memrg j = some (.ok ((byteOf c (accessAddr c memrg j)).signExtend 32), c) :=
  libread_symbol_ok h.area h.symbol (pgGetval_of_present (h.present j hj) h.random (h.inRange j hj))

/-- The byte -1 ends the name, and no other byte. -/
theorem signExtend_eq_neg_one {b : BYTE} : b.signExtend 32 = -1 ↔ b = -1 := by
  revert b
  decide

/-- **The name has an end** within the first `i + room` bytes if one of them is -1. -/
theorem RegionResident.nameRead_iff (h : RegionResident c memrg n) {i room : ℕ}
    (hroom : i + room ≤ n) :
    (∃ name c', NameRead memrg i c name c' ∧ name.length < room) ↔
      ∃ j, i ≤ j ∧ j < i + room ∧ byteOf c (accessAddr c memrg j) = -1 := by
  induction room generalizing i with
  | zero =>
      constructor
      · rintro ⟨name, c', -, hlt⟩
        exact absurd hlt (Nat.not_lt_zero _)
      · rintro ⟨j, hle, hlt, -⟩
        omega
  | succ room ih =>
      have hread := h.libread (show i < n by omega)
      by_cases hstop : byteOf c (accessAddr c memrg i) = -1
      · have hend := hread
        rw [signExtend_eq_neg_one.mpr hstop] at hend
        constructor
        · intro _
          exact ⟨i, Nat.le_refl i, by omega, hstop⟩
        · intro _
          exact ⟨[], c, .stop hend, Nat.succ_pos room⟩
      · have hne := fun heq => hstop (signExtend_eq_neg_one.mp heq)
        have hrest := ih (i := i + 1) (by omega)
        constructor
        · rintro ⟨name, c', hname, hlt⟩
          cases hname with
          | failed hfail =>
              rw [hread] at hfail
              cases hfail
          | stop hend =>
              rw [hread] at hend
              exact absurd (Ret.ok.inj (Prod.mk.inj (Option.some.inj hend)).1) hne
          | byte hbyte _ hname =>
              obtain ⟨-, rfl⟩ := Prod.mk.inj (Option.some.inj (hread.symm.trans hbyte))
              obtain ⟨j, hle, hlt, heq⟩ := hrest.mp ⟨_, c', hname, Nat.lt_of_succ_lt_succ hlt⟩
              exact ⟨j, by omega, by omega, heq⟩
        · rintro ⟨j, hle, hlt, heq⟩
          have hji : j ≠ i := by
            intro hji
            rw [hji] at heq
            exact hstop heq
          obtain ⟨name, c', hname, hlt⟩ := hrest.mpr ⟨j, by omega, by omega, heq⟩
          exact ⟨_, c', .byte hread hne hname, Nat.succ_lt_succ hlt⟩

/-- **The condition on the bytes**: one of the first 100 bytes from the start of the region
on is -1, wherever the region ends. -/
theorem nameRead_resident (h : RegionResident c memrg procNameSize) :
    (∃ name c', NameRead memrg 0 c name c' ∧ name.length < procNameSize) ↔
      ∃ j : ℕ, j < procNameSize ∧ byteOf c (accessAddr c memrg j) = -1 := by
  rw [h.nameRead_iff (Nat.le_of_eq (Nat.zero_add _))]
  simp

end

/-! ## The comparison -/

/-- The comparison selects process `p`. -/
def Selects (c : Caller) (memrg : ℤ) (p : Pcb) : Prop :=
  ∃ procName c', readName c memrg = some (procName, c') ∧ p.hasName procName

/-- **The stored path** ends in the first five bytes of the name. -/
theorem strrchr_load {n : List BYTE} (hn : slash ∉ n) (code : List InsT) :
    CString.strrchr slash (load (readConfigPath n) code).path = some (slash :: n.take 5) := by
  have hpath : (load (readConfigPath n) code).path =
      [105, 110, 112, 117, 116, 47, 112, 114, 111, 99] ++ slash :: n.take 5 := by
    simp only [load, CString.snprintf, readConfigPath, sizeofPath, inputProc]
    rfl
  rw [hpath]
  exact CString.strrchr_append (fun hmem => hn (List.mem_of_mem_take hmem)) _

theorem hasName_load {n : List BYTE} (hn : slash ∉ n) (code : List InsT) (procName : List BYTE) :
    (load (readConfigPath n) code).hasName procName ↔ procName = n.take 5 := by
  rw [Pcb.hasName, strrchr_load hn]
  exact decide_eq_true_iff.trans eq_comm

/-- **What the comparison selects**: the processes whose names have the bytes read as their
first five. -/
theorem selects_load {c c' : Caller} {memrg : ℤ} {s n : List BYTE} (code : List InsT)
    (hread : NameRead memrg 0 c s c') (hlen : s.length < procNameSize) (hs : (0 : BYTE) ∉ s)
    (hn : slash ∉ n) : Selects c memrg (load (readConfigPath n) code) ↔ s = n.take 5 := by
  have hbuf : CString.ofBuffer 0 s = s := by
    have hfull := CString.ofBuffer_append hs []
    rwa [ofBuffer_concat] at hfull
  have hname : readName c memrg = some (s, c') :=
    readName_eq_some.mpr ⟨s, hread, hlen, hbuf.symm⟩
  rw [← hasName_load hn code s]
  constructor
  · rintro ⟨procName, c₁, hname', hsel⟩
    obtain ⟨rfl, -⟩ := Prod.mk.inj (Option.some.inj (hname.symm.trans hname'))
    exact hsel
  · intro hsel
    exact ⟨s, c', hname, hsel⟩

/-- **When the comparison is right**: if the name has at most five bytes, or the bytes read
are neither the name nor its first five. -/
theorem selects_iff {c c' : Caller} {memrg : ℤ} {s n : List BYTE} (code : List InsT)
    (hread : NameRead memrg 0 c s c') (hlen : s.length < procNameSize) (hs : (0 : BYTE) ∉ s)
    (hn : slash ∉ n) : (Selects c memrg (load (readConfigPath n) code) ↔ s = n) ↔
      n.length ≤ 5 ∨ (s ≠ n ∧ s ≠ n.take 5) := by
  rw [selects_load code hread hlen hs hn]
  by_cases hshort : n.length ≤ 5
  · rw [List.take_of_length_le hshort]
    simp [hshort]
  · have hne : n.take 5 ≠ n := by
      intro heq
      have hlen' := congrArg List.length heq
      rw [List.length_take] at hlen'
      omega
    simp only [hshort, false_or]
    constructor
    · intro hiff
      constructor
      · intro heq
        exact hne ((hiff.mpr heq).symm.trans heq)
      · intro heq
        exact hne (heq.symm.trans (hiff.mp heq))
    · rintro ⟨hn', htake⟩
      simp [hn', htake]

/-- The reads that a run of the loop has made. -/
theorem nameRead_of_loop {c c' : Caller} {memrg : ℤ} {s : List BYTE}
    (h : readNameLoop memrg procNameSize 0 [] c = some (s ++ [0], c')) :
    NameRead memrg 0 c s c' := by
  obtain ⟨name, hname, -, heq⟩ := readNameLoop_eq_some.mp h
  rw [List.nil_append] at heq
  obtain rfl := List.append_cancel_right heq
  exact hname

/-- The reads of a name that memory holds, followed by bytes -1. -/
theorem nameRead_smallMem {s : List BYTE}
    (h : (readNameLoop 1 procNameSize 0 [] ((smallMem s).caller 0)).any
      fun r => r.1 = s ++ [0]) : ∃ c', NameRead 1 0 ((smallMem s).caller 0) s c' := by
  obtain ⟨c', hloop⟩ := eq_some_of_any_fst h
  exact ⟨c', nameRead_of_loop hloop⟩

theorem selects_iff_nameB :
    Selects ((smallMem nameB).caller 0) 1 (load (readConfigPath nameB) []) ↔ nameB = nameB := by
  obtain ⟨c', hread⟩ := nameRead_smallMem (s := nameB) (by decide +kernel)
  exact (selects_iff [] hread (by decide) (by decide) (by decide)).mpr (Or.inl (by decide))

/-- The name `abcdef`. -/
def nameAbcdef : List BYTE := [97, 98, 99, 100, 101, 102]

/-- **A process that cannot be killed** by its name: a name of six bytes. -/
theorem long_name_not_selected :
    (∃ c', NameRead 1 0 ((smallMem nameAbcdef).caller 0) nameAbcdef c') ∧
      ¬ (Selects ((smallMem nameAbcdef).caller 0) 1 (load (readConfigPath nameAbcdef) []) ↔
        nameAbcdef = nameAbcdef) := by
  obtain ⟨c', hread⟩ := nameRead_smallMem (s := nameAbcdef) (by decide +kernel)
  refine ⟨⟨c', hread⟩, ?_⟩
  intro hiff
  have hsel := hiff.mpr rfl
  rw [selects_load [] hread (by decide) (by decide) (by decide)] at hsel
  revert hsel
  decide

end SimOs.Os
